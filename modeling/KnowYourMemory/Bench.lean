import KnowYourMemory.RingBuffer

/-!
# The bandwidth benchmark

The calls that a benchmark makes to its connections while none of them fails. A sender
and a receiver are separate processes: each computes its number of messages from the
options that both are given.
-/

set_option autoImplicit false

namespace KYM.Bench
open KYM.RingBuffer

/-- `messages` go out with one call; `slot` is the place in `ids`. -/
inductive Call where
  | send (messages : ℕ)
  | sendAsync (messages slot : ℕ)
  | wait (slot : ℕ)
  | receive
  | free
  deriving DecidableEq, Repr

/-- `undefined` is a division by zero or the overflow of an `int`. -/
inductive Outcome where
  | undefined
  | failed (status : Status)
  | calls (cs : List Call)
  deriving DecidableEq, Repr

/-- `for (int i = first; ...; i++)` with the number of its rounds. -/
def loop (body : ℕ → List Call) : ℕ → ℕ → List Call
  | _, 0 => []
  | i, rounds+1 => body i++loop body (i+1) rounds

def nanodelay (count : ℕ) : Option ℕ := if count = 0 then none else some (5*10^9/count)

def testWarmupSend (count : ℕ) : Option (List Call) :=
  (nanodelay count).map (fun _ => loop (fun _ => [.send 1]) 0 count)

def testWarmupBatchSend (count : ℕ) : List Call := loop (fun _ => [.send 1]) 0 count

def testWarmupReceive (count : ℕ) : List Call := loop (fun _ => [.receive, .free]) 0 count

def testBwSend (count unack : ℕ) : Outcome :=
  match testWarmupSend (count/16) with
  | none => .undefined
  | some warmup =>
    .calls (warmup++loop (fun i => [.sendAsync 1 i]) 0 unack++
      loop (fun i => [.wait (i%unack), .sendAsync 1 (i%unack)]) unack (count-unack)++
      loop (fun i => [.wait i]) 0 unack)

def testBwBatchSend (count batch unack : ℕ) : Outcome :=
  if batch > unack then .failed ⟨.invalidArgument, "batch cannot be larger than unack"⟩
  else if unack > count then .failed ⟨.invalidArgument, "unack cannot be larger than count"⟩
  else if batch = 0 then .undefined
  else
    let unackBatch := unack/batch
    let countBatch := count/batch
    .calls (testWarmupBatchSend (count/16)++loop (fun i => [.sendAsync batch i]) 0 unackBatch++
      loop (fun i => [.wait (i%unackBatch), .sendAsync batch (i%unackBatch)]) unackBatch
        (countBatch-unackBatch))

def testBwRecv (count : ℕ) : Outcome :=
  if min count 5000 = 0 then .undefined
  else .calls (testWarmupReceive (count/16)++loop (fun _ => [.receive, .free]) 0 count)

def testBwRecvAll (receivers count : ℕ) : Outcome :=
  let round := fun _ => loop (fun _ => [.receive, .free]) 0 receivers
  if min count 5000 = 0 then .undefined
  else .calls (loop round 0 (count/16)++loop round 0 count)

def mulInt (a b : ℕ) : Option ℕ := if a*b < 2^31 then some (a*b) else none

def sharedRecv (connCount count : ℕ) : Outcome :=
  match mulInt connCount count with
  | none => .undefined
  | some n => testBwRecv n

def Call.sent : Call → ℕ
  | .send messages => messages
  | .sendAsync messages _ => messages
  | _ => 0

def Call.received : Call → ℕ
  | .receive => 1
  | _ => 0

def total (f : Call → ℕ) (cs : List Call) : ℕ := (cs.map f).sum

def Outcome.total (f : Call → ℕ) : Outcome → Option ℕ
  | .calls cs => some (Bench.total f cs)
  | _ => none

def allSent : List Outcome → Option ℕ
  | [] => some 0
  | o::os => (o.total Call.sent).bind (fun n => (allSent os).map (n+·))

def Agree (senders : List Outcome) (receiver : Outcome) : Prop :=
  ∃ n, allSent senders = some n ∧ receiver.total Call.received = some n

@[simp] theorem total_nil (f : Call → ℕ) : total f [] = 0 := rfl

@[simp] theorem total_cons (f : Call → ℕ) (c : Call) (cs : List Call) :
    total f (c::cs) = f c+total f cs := List.sum_cons

@[simp] theorem total_append (f : Call → ℕ) (cs ds : List Call) :
    total f (cs++ds) = total f cs+total f ds := by
  simp [total]

theorem total_loop (f : Call → ℕ) (body : ℕ → List Call) (k : ℕ)
    (hbody : ∀ i, total f (body i) = k) (first rounds : ℕ) :
    total f (loop body first rounds) = rounds*k := by
  induction rounds generalizing first with
  | zero => rw [loop, total_nil, Nat.zero_mul]
  | succ rounds ih => rw [loop, total_append, hbody, ih, Nat.succ_mul, Nat.add_comm]

theorem testBwSend_total (count unack : ℕ) (hu : unack ≤ count) :
    (testBwSend count unack).total Call.sent =
      if 16 ≤ count then some (count/16+count) else none := by
  unfold testBwSend testWarmupSend nanodelay
  by_cases hc : 16 ≤ count
  · have hdiv : count/16 ≠ 0 := by omega
    rw [if_neg hdiv, if_pos hc]
    simp only [Option.map_some, Outcome.total, total_append]
    rw [total_loop _ _ 1 (fun _ => rfl), total_loop _ _ 1 (fun _ => rfl),
      total_loop _ _ 1 (fun _ => rfl), total_loop _ _ 0 (fun _ => rfl)]
    congr 1
    omega
  · have hdiv : count/16 = 0 := by omega
    rw [if_pos hdiv, if_neg hc]
    rfl

theorem testBwBatchSend_total (count batch unack : ℕ) (hu : unack ≤ count) (hb : 1 ≤ batch)
    (hbu : batch ≤ unack) :
    (testBwBatchSend count batch unack).total Call.sent = some (count/16+count/batch*batch) := by
  have hle : unack/batch ≤ count/batch := Nat.div_le_div_right hu
  unfold testBwBatchSend testWarmupBatchSend
  rw [if_neg (by omega), if_neg (by omega), if_neg (by omega)]
  simp only [Outcome.total, total_append]
  rw [total_loop _ _ 1 (fun _ => rfl), total_loop _ _ batch (fun _ => rfl),
    total_loop _ _ batch (fun _ => by simp [Call.sent]), Nat.add_assoc, ← Nat.add_mul,
    Nat.add_sub_of_le hle, Nat.mul_one]

theorem testBwRecv_total (count : ℕ) (hc : 1 ≤ count) :
    (testBwRecv count).total Call.received = some (count/16+count) := by
  unfold testBwRecv testWarmupReceive
  rw [if_neg (by omega)]
  simp only [Outcome.total, total_append]
  rw [total_loop _ _ 1 (fun _ => rfl), total_loop _ _ 1 (fun _ => rfl), Nat.mul_one, Nat.mul_one]

theorem testBwRecvAll_total (receivers count : ℕ) (hc : 1 ≤ count) :
    (testBwRecvAll receivers count).total Call.received =
      some (receivers*(count/16+count)) := by
  have hround : ∀ _ : ℕ, total Call.received (loop (fun _ => [.receive, .free]) 0 receivers) =
      receivers := fun _ => by rw [total_loop _ _ 1 (fun _ => rfl), Nat.mul_one]
  unfold testBwRecvAll
  rw [if_neg (by omega)]
  simp only [Outcome.total, total_append]
  rw [total_loop _ _ receivers hround, total_loop _ _ receivers hround, ← Nat.add_mul, Nat.mul_comm]

theorem allSent_replicate (o : Outcome) (n k : ℕ) (ho : o.total Call.sent = some n) :
    allSent (List.replicate k o) = some (k*n) := by
  induction k with
  | zero => rw [List.replicate_zero, allSent, Nat.zero_mul]
  | succ k ih =>
    rw [List.replicate_succ, allSent, ho, ih, Option.bind_some, Option.map_some, Nat.succ_mul,
      Nat.add_comm]

theorem allSent_undefined (o : Outcome) (k : ℕ) (ho : o.total Call.sent = none) (hk : 1 ≤ k) :
    allSent (List.replicate k o) = none := by
  obtain ⟨k, rfl⟩ := Nat.exists_eq_add_of_le' hk
  rw [List.replicate_succ, allSent, ho, Option.bind_none]

theorem agree_iff (senders : List Outcome) (receiver : Outcome) (n m : ℕ)
    (hs : allSent senders = some n) (hr : receiver.total Call.received = some m) :
    Agree senders receiver ↔ n = m := by
  simp [Agree, hs, hr, eq_comm]

theorem warmups_eq_iff (connCount count : ℕ) :
    connCount*(count/16) = connCount*count/16 ↔ connCount*(count%16) < 16 := by
  have hsplit : connCount*count = 16*(connCount*(count/16))+connCount*(count%16) := by
    conv_lhs => rw [← Nat.div_add_mod count 16]
    rw [Nat.mul_add, Nat.mul_left_comm]
  omega

/-- The overload that warms up each connection waits for what its senders send. -/
theorem recvAll_agrees (count connCount unack : ℕ) (hc : 16 ≤ count) (hu : unack ≤ count) :
    Agree (List.replicate connCount (testBwSend count unack)) (testBwRecvAll connCount count) := by
  have hsend := testBwSend_total count unack hu
  rw [if_pos hc] at hsend
  exact (agree_iff _ _ _ _ (allSent_replicate _ _ connCount hsend)
    (testBwRecvAll_total connCount count (by omega))).mpr rfl

theorem shared_agrees_iff (count connCount unack : ℕ) (hc : 1 ≤ count) (hconn : 1 ≤ connCount)
    (hu : unack ≤ count) :
    Agree (List.replicate connCount (testBwSend count unack)) (sharedRecv connCount count) ↔
      16 ≤ count ∧ connCount*count < 2^31 ∧ connCount*(count%16) < 16 := by
  have hsend := testBwSend_total count unack hu
  by_cases hwarm : 16 ≤ count
  · rw [if_pos hwarm] at hsend
    have hall := allSent_replicate _ _ connCount hsend
    by_cases hint : connCount*count < 2^31
    · have hrecv := testBwRecv_total (connCount*count) (Nat.mul_pos hconn hc)
      rw [sharedRecv, mulInt, if_pos hint, agree_iff _ _ _ _ hall hrecv, Nat.mul_add,
        Nat.add_right_cancel_iff, warmups_eq_iff]
      simp only [hwarm, hint, true_and]
    · rw [sharedRecv, mulInt, if_neg hint]
      constructor
      · rintro ⟨n, -, hn⟩
        cases hn
      · exact fun h => absurd h.2.1 hint
  · rw [if_neg hwarm] at hsend
    constructor
    · rintro ⟨n, hn, -⟩
      rw [allSent_undefined _ connCount hsend hconn] at hn
      cases hn
    · exact fun h => absurd h.1 hwarm

theorem batch_agrees_iff (count batch unack : ℕ) (hc : 1 ≤ count) (hu : unack ≤ count)
    (hb : 1 ≤ batch) (hbu : batch ≤ unack) :
    Agree [testBwBatchSend count batch unack] (testBwRecv count) ↔ batch ∣ count := by
  have hall : allSent [testBwBatchSend count batch unack] = some (count/16+count/batch*batch) := by
    rw [allSent, testBwBatchSend_total count batch unack hu hb hbu, allSent]
    rfl
  rw [agree_iff _ _ _ _ hall (testBwRecv_total count hc), Nat.add_left_cancel_iff]
  exact ⟨fun h => ⟨count/batch, by rw [Nat.mul_comm]; exact h.symm⟩, Nat.div_mul_cancel⟩

/-- Senders and receiver agree exactly under these conditions on the options. -/
theorem messages_agree (count connCount unack batch : ℕ) (hc : 1 ≤ count)
    (hconn : 1 ≤ connCount) (hu : 1 ≤ unack ∧ unack ≤ count) (hb : 1 ≤ batch ∧ batch ≤ unack) :
    (Agree (List.replicate connCount (testBwSend count unack)) (sharedRecv connCount count) ↔
      16 ≤ count ∧ connCount*count < 2^31 ∧ connCount*(count%16) < 16) ∧
    (Agree [testBwBatchSend count batch unack] (testBwRecv count) ↔ batch ∣ count) :=
  ⟨shared_agrees_iff count connCount unack hc hconn hu.2,
    batch_agrees_iff count batch unack hc hu.2 hb.1 hb.2⟩

theorem messages_agree_rounded :
    (Agree (List.replicate 2 (testBwSend 1600 100)) (sharedRecv 2 1600) ↔
      16 ≤ 1600 ∧ 2*1600 < 2^31 ∧ 2*(1600%16) < 16) ∧
    (Agree [testBwBatchSend 1600 10 100] (testBwRecv 1600) ↔ 10 ∣ 1600) :=
  messages_agree 1600 2 100 10 (by decide) (by decide) (by decide) (by decide)

/-- Two senders send 50 messages and the receiver waits for 51; 15 of 17 leave in batches
of 5; below 16 the warm-up divides by zero. -/
theorem last_message_missing :
    allSent (List.replicate 2 (testBwSend 24 8)) = some 50 ∧
    (sharedRecv 2 24).total Call.received = some 51 ∧
    ¬Agree (List.replicate 2 (testBwSend 24 8)) (sharedRecv 2 24) ∧
    ¬Agree [testBwBatchSend 17 5 10] (testBwRecv 17) ∧
    ¬Agree [testBwSend 15 8] (testBwRecv 15) := by
  have hsent : allSent (List.replicate 2 (testBwSend 24 8)) = some 50 := by decide
  have hwaits : (sharedRecv 2 24).total Call.received = some 51 := by decide
  refine ⟨hsent, hwaits, ?_, ?_, ?_⟩
  · exact fun h => absurd ((agree_iff _ _ _ _ hsent hwaits).mp h) (by decide)
  · have hbatch : allSent [testBwBatchSend 17 5 10] = some 16 := by decide
    have hrecv : (testBwRecv 17).total Call.received = some 18 := by decide
    exact fun h => absurd ((agree_iff _ _ _ _ hbatch hrecv).mp h) (by decide)
  · rintro ⟨n, hn, -⟩
    exact absurd hn (by simp [show allSent [testBwSend 15 8] = none by decide])

end KYM.Bench
