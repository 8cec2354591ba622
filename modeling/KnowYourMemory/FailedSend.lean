import KnowYourMemory.SpaceWait

/-!
# Sends that fail

A single send moves the tail after it has posted, a batch while it claims space. The
tail of a failed batch stays ahead by the messages that had found space, unless these go
round the ring a whole number of times.
-/

set_option autoImplicit false

namespace KYM.FailedSend
open KYM.Circle KYM.RingBuffer KYM.RingOffsets KYM.WriteSenders KYM.SpaceWait
open KYM.WriteConnection (Sender wrap written)

inductive Call where
  | single (reg : SendRegion)
  | batch (regs : List SendRegion)
  deriving DecidableEq, Repr

section Calls

variable (k : Sender) (crc : List UInt8 → UInt32) (d : Direction)

def call : Call → List (StatusOr UInt32) → StatusOr Unit → RemoteBuffer → ℕ → Option Outcome
  | .single reg => sendAsync k crc d reg
  | .batch regs => sendBatch k crc d regs

def claimedBy : List SendRegion → List (StatusOr UInt32) → RemoteBuffer → List ℕ
  | [], _, _ => []
  | reg::regs, answers, r =>
    let len := reg.length+k.overhead
    match getWriteAddrOrDie d len answers r with
    | some ⟨.ok _, answers, r⟩ => len.toNat::claimedBy regs answers (written d r len)
    | _ => []

/-- Claims that lead from the tail `t` back to it. The reversed ring starts at `0`, and
names this boundary by the length from then on. -/
def Closes (d : Direction) (L t : ℕ) (ns : List ℕ) : Prop :=
  match d with
  | .up => L ∣ ns.sum
  | .down => if t = 0 then ∀ n ∈ ns, n = L else L ∣ ns.sum

/-- Single sends, batches that are not implemented, and batches whose claims close. -/
def TailSafe (answers : List (StatusOr UInt32)) (r : RemoteBuffer) : Call → Prop
  | .single _ => True
  | .batch regs =>
    match k with
    | .reverse => True
    | .write | .imm | .offset =>
      Closes d r.length.toNat r.tail.toNat (claimedBy k d regs answers r)

end Calls

/-- Heads that a receiver of this ring publishes. -/
def ValidAnswers (d : Direction) (L : ℕ) (answers : List (StatusOr UInt32)) : Prop :=
  ∀ head, .ok head ∈ answers → Valid d L head

section Waiting

variable {d : Direction} {L : ℕ} {r : RemoteBuffer} {len : UInt32}
  {first later : Status → Status → Status} {answers : List (StatusOr UInt32)} {space : Space}

structure Waited (d : Direction) (L : ℕ) (r : RemoteBuffer) (len : UInt32) (space : Space) :
    Prop where
  range : InRange d L space.rbuf
  tail : space.rbuf.tail = r.tail
  answers : ValidAnswers d L space.answers
  accepted : ∀ addr, space.addr = .ok addr → getWriteAddr d space.rbuf len = .ok addr

theorem waited_ok (h : InRange d L r) (hv : ValidAnswers d L answers) (addr : UInt64)
    (ha : getWriteAddr d r len = .ok addr) : Waited d L r len ⟨.ok addr, answers, r⟩ :=
  ⟨h, rfl, hv, fun _ he => Except.ok.inj he ▸ ha⟩

theorem waited_error (h : InRange d L r) (hv : ValidAnswers d L answers) (e : Status) :
    Waited d L r len ⟨.error e, answers, r⟩ := ⟨h, rfl, hv, fun _ he => by cases he⟩

theorem ValidAnswers.tail {a : StatusOr UInt32} (hv : ValidAnswers d L (a::answers)) :
    ValidAnswers d L answers := fun head hh => hv head (List.mem_cons_of_mem _ hh)

theorem Waited.updateHead (head : UInt32) (h : Waited d L (updateHead d r head) len space) :
    Waited d L r len space :=
  ⟨h.range, h.tail.trans (by rw [updateHead_eq]), h.answers, h.accepted⟩

theorem spaceLoop_waited (h : InRange d L r) (hv : ValidAnswers d L answers)
    (hs : spaceLoop d len later answers r = some space) : Waited d L r len space := by
  induction answers generalizing r with
  | nil =>
    cases ha : getWriteAddr d r len with
    | ok addr =>
      rw [spaceLoop_ok _ _ _ _ ha] at hs
      exact Option.some.inj hs ▸ waited_ok h hv addr ha
    | error e => simp [spaceLoop_nil later len e ha] at hs
  | cons a answers ih =>
    cases ha : getWriteAddr d r len with
    | ok addr =>
      rw [spaceLoop_ok _ _ _ _ ha] at hs
      exact Option.some.inj hs ▸ waited_ok h hv addr ha
    | error e =>
      cases a with
      | error s =>
        rw [spaceLoop] at hs
        simp only [ha] at hs
        exact Option.some.inj hs ▸ waited_error h hv.tail _
      | ok head =>
        rw [spaceLoop_head _ _ e _ _ ha] at hs
        exact (ih (h.updateHead head (hv head List.mem_cons_self)) hv.tail hs).updateHead head

theorem awaitSpace_waited (h : InRange d L r) (hv : ValidAnswers d L answers)
    (hs : awaitSpace d len first later answers r = some space) : Waited d L r len space := by
  cases ha : getWriteAddr d r len with
  | ok addr =>
    rw [awaitSpace_ok _ _ _ _ _ ha] at hs
    exact Option.some.inj hs ▸ waited_ok h hv addr ha
  | error e =>
    match answers with
    | [] => simp [awaitSpace, ha] at hs
    | .error s::answers =>
      simp only [awaitSpace, ha] at hs
      exact Option.some.inj hs ▸ waited_error h hv.tail _
    | .ok head::answers =>
      simp only [awaitSpace, ha] at hs
      exact (spaceLoop_waited (h.updateHead head (hv head List.mem_cons_self)) hv.tail
        hs).updateHead head

theorem singleSpace_waited (k : Sender) (h : InRange d L r) (hv : ValidAnswers d L answers)
    (hs : singleSpace d len k answers r = some space) : Waited d L r len space := by
  cases k <;> exact awaitSpace_waited h hv hs

end Waiting

section Tails

variable {d : Direction} {L t : ℕ} {ns : List ℕ}

theorem up_closes (ht : t < L) : ns.foldl (advance .up L) t = t ↔ L ∣ ns.sum := by
  have hsum : ∀ (ns : List ℕ) (t : ℕ), t < L → ns.foldl (advance .up L) t = (t+ns.sum)%L := by
    intro ns
    induction ns with
    | nil => exact fun t ht => (Nat.mod_eq_of_lt ht).symm
    | cons n ns ih =>
      intro t ht
      have hstep := ih ((t+n)%L) (Nat.mod_lt _ (by omega))
      rw [Nat.mod_add_mod] at hstep
      rw [List.foldl_cons, List.sum_cons, ← Nat.add_assoc]
      exact hstep
  rw [hsum ns t ht]
  constructor
  · intro he
    have hmod : t+ns.sum ≡ t+0 [MOD L] := by
      rw [Nat.ModEq, he, Nat.add_zero, Nat.mod_eq_of_lt ht]
    exact Nat.modEq_zero_iff_dvd.mp (Nat.ModEq.add_left_cancel' t hmod)
  · intro hd
    rw [Nat.add_mod, Nat.mod_eq_zero_of_dvd hd, Nat.add_zero, Nat.mod_mod, Nat.mod_eq_of_lt ht]

theorem stepDown_spec (n : ℕ) (ht : 0 < t ∧ t ≤ L) (hn : n ≤ L) :
    0 < stepDown L t n ∧ stepDown L t n ≤ L ∧ (stepDown L t n+n)%L = t%L := by
  unfold stepDown
  by_cases h : n < t
  · rw [if_pos h, Nat.sub_add_cancel h.le]
    omega
  · rw [if_neg h, Nat.sub_add_cancel (by omega), Nat.add_mod_right]
    omega

theorem residue_pos (a b : ℕ) (ha : 0 < a ∧ a ≤ L) (hb : 0 < b ∧ b ≤ L) (h : a%L = b%L) :
    a = b := by
  have hcase : ∀ x, 0 < x ∧ x ≤ L → x%L = if x = L then 0 else x := by
    intro x hx
    by_cases he : x = L
    · rw [if_pos he, he, Nat.mod_self]
    · rw [if_neg he, Nat.mod_eq_of_lt (by omega)]
  rw [hcase a ha, hcase b hb] at h
  split_ifs at h <;> omega

theorem down_closes (ht : 0 < t ∧ t ≤ L) (hn : ∀ n ∈ ns, n ≤ L) :
    ns.foldl (advance .down L) t = t ↔ L ∣ ns.sum := by
  have hsum : ∀ (ns : List ℕ), (∀ n ∈ ns, n ≤ L) → ∀ t, 0 < t ∧ t ≤ L →
      (0 < ns.foldl (advance .down L) t ∧ ns.foldl (advance .down L) t ≤ L) ∧
        (ns.foldl (advance .down L) t+ns.sum)%L = t%L := by
    intro ns
    induction ns with
    | nil => exact fun _ t ht => ⟨ht, rfl⟩
    | cons n ns ih =>
      intro hn t ht
      obtain ⟨h1, h2, h3⟩ := stepDown_spec n ht (hn n List.mem_cons_self)
      obtain ⟨hb, he⟩ := ih (fun x hx => hn x (List.mem_cons_of_mem _ hx)) _ ⟨h1, h2⟩
      refine ⟨hb, ?_⟩
      rw [List.foldl_cons, List.sum_cons, ← h3, Nat.add_comm n, ← Nat.add_assoc,
        ← Nat.mod_add_mod]
      show ((ns.foldl (advance .down L) (stepDown L t n)+ns.sum)%L+n)%L = _
      rw [he, Nat.mod_add_mod]
  obtain ⟨hb, he⟩ := hsum ns hn t ht
  constructor
  · intro hfold
    rw [hfold] at he
    have hmod : t+ns.sum ≡ t+0 [MOD L] := he
    exact Nat.modEq_zero_iff_dvd.mp (Nat.ModEq.add_left_cancel' t hmod)
  · intro hd
    apply residue_pos _ _ hb ht
    rw [← he, Nat.add_mod _ ns.sum, Nat.mod_eq_zero_of_dvd hd, Nat.add_zero, Nat.mod_mod]

theorem zero_closes (hn : ∀ n ∈ ns, n ≤ L) :
    ns.foldl (advance .down L) 0 = 0 ↔ ∀ n ∈ ns, n = L := by
  have hpos : ∀ (ns : List ℕ), (∀ n ∈ ns, n ≤ L) → ∀ t, 0 < t ∧ t ≤ L →
      0 < ns.foldl (advance .down L) t := by
    intro ns
    induction ns with
    | nil => exact fun _ t ht => ht.1
    | cons n ns ih =>
      intro hn t ht
      obtain ⟨h1, h2, -⟩ := stepDown_spec n ht (hn n List.mem_cons_self)
      exact ih (fun x hx => hn x (List.mem_cons_of_mem _ hx)) _ ⟨h1, h2⟩
  induction ns with
  | nil => simp
  | cons n ns ih =>
    have hle := hn n List.mem_cons_self
    have hrest : ∀ x ∈ ns, x ≤ L := fun x hx => hn x (List.mem_cons_of_mem _ hx)
    have hstep : advance .down L 0 n = L-n := by simp [advance, stepDown]
    rw [List.foldl_cons, List.forall_mem_cons, hstep]
    by_cases he : n = L
    · rw [he, Nat.sub_self]
      simpa using ih hrest
    · have := hpos ns hrest (L-n) (by omega)
      constructor
      · intro h0
        omega
      · exact fun h => absurd h.1 he

theorem closes_iff {r : RemoteBuffer} (h : InRange d L r) (hn : ∀ n ∈ ns, n ≤ L) :
    ns.foldl (advance d L) r.tail.toNat = r.tail.toNat ↔ Closes d L r.tail.toNat ns := by
  have ht := h.tail
  cases d with
  | up => exact up_closes ht
  | down =>
    unfold Closes
    by_cases h0 : r.tail.toNat = 0
    · simpa [h0] using zero_closes hn
    · simpa [h0] using down_closes ⟨Nat.pos_of_ne_zero h0, ht⟩ hn

end Tails

section Failing

variable {k : Sender} {crc : List UInt8 → UInt32} {d : Direction} {L : ℕ} {r : RemoteBuffer}
  {answers : List (StatusOr UInt32)} {regs : List SendRegion} {reg : SendRegion}

theorem gather_tail (h : InRange d L r) (hv : ValidAnswers d L answers) (id size i : ℕ)
    (g : Gathered) (hg : gather k crc d id size i regs answers r = some g) :
    g.rbuf.tail.toNat = (claimedBy k d regs answers r).foldl (advance d L) r.tail.toNat ∧
      ∀ n ∈ claimedBy k d regs answers r, n ≤ L := by
  induction regs generalizing r answers i g with
  | nil =>
    rw [← Option.some.inj hg]
    exact ⟨rfl, fun n hn => by simp [claimedBy] at hn⟩
  | cons reg regs ih =>
    cases hs : getWriteAddrOrDie d (reg.length+k.overhead) answers r with
    | none => simp [gather, hs] at hg
    | some space =>
      have hw := awaitSpace_waited h hv hs
      obtain ⟨addr, answers', r'⟩ := space
      have ht : r'.tail = r.tail := hw.tail
      cases addr with
      | error e =>
        simp only [gather, hs, Option.some.injEq] at hg
        simp [claimedBy, hs, ← hg, ht]
      | ok addr =>
        have ha : ∃ a, getWriteAddr d r' (reg.length+k.overhead) = .ok a :=
          ⟨addr, hw.accepted addr rfl⟩
        simp only [gather, hs] at hg
        obtain ⟨g', hg', rfl⟩ := Option.map_eq_some_iff.mp hg
        obtain ⟨htail, hle⟩ := ih (hw.range.written ha) hw.answers (i+1) g' hg'
        obtain ⟨tail, hadv, hwr⟩ := written_spec hw.range ha
        have hnext : (written d r' (reg.length+k.overhead)).tail.toNat =
            advance d L r.tail.toNat (reg.length+k.overhead).toNat := by
          rw [hwr, ← ht]
          exact hadv
        simp only [claimedBy, hs, List.foldl_cons, ← hnext]
        refine ⟨htail, ?_⟩
        intro n hn
        rcases List.mem_cons.mp hn with rfl | hn
        · exact accepted_le hw.range ha
        · exact hle n hn

theorem single_tail (h : InRange d L r) (hv : ValidAnswers d L answers) (posting : StatusOr Unit)
    (id : ℕ) (out : Outcome) (e : Status)
    (hs : sendAsync k crc d reg answers posting r id = some out) (he : out.status = .error e) :
    out.rbuf.tail = r.tail := by
  simp only [sendAsync] at hs
  split at hs
  · cases hs
  · next hspace =>
    rw [← Option.some.inj hs]
    exact (singleSpace_waited k h hv hspace).tail
  · next hspace =>
    have ht := (singleSpace_waited k h hv hspace).tail
    split at hs
    · rw [← Option.some.inj hs]
      exact ht
    · obtain rfl := Option.some.inj hs
      cases posting with
      | error e' => exact ht
      | ok _ => cases he

theorem batch_rbuf (hk : k ≠ .reverse) (posting : StatusOr Unit) (id : ℕ) (out : Outcome)
    (e : Status) (hs : sendBatch k crc d regs answers posting r id = some out)
    (he : out.status = .error e) :
    ∃ g, gather k crc d id regs.length 0 regs answers r = some g ∧ out.rbuf = g.rbuf := by
  cases k with
  | reverse => exact absurd rfl hk
  | write | imm | offset =>
    simp only [sendBatch] at hs
    split at hs
    · cases hs
    · next hg => exact ⟨_, hg, by rw [← Option.some.inj hs]⟩
    · next hg =>
      obtain rfl := Option.some.inj hs
      cases posting with
      | error e' => exact ⟨_, hg, rfl⟩
      | ok _ => cases he

end Failing

/-- A failed send leaves the tail as it was exactly when it is a single one, or the
messages that had found space lead back to it. -/
theorem failed_send_iff (k : Sender) (crc : List UInt8 → UInt32) (d : Direction) (c : Call)
    (answers : List (StatusOr UInt32)) (posting : StatusOr Unit) (r : RemoteBuffer) (id : ℕ)
    (out : Outcome) (e : Status) (hr : Reachable d r)
    (hv : ValidAnswers d r.length.toNat answers)
    (hs : call k crc d c answers posting r id = some out) (he : out.status = .error e) :
    out.rbuf.tail = r.tail ↔ TailSafe k d answers r c := by
  cases c with
  | single reg => exact iff_of_true (single_tail hr.inRange hv posting id out e hs he) trivial
  | batch regs =>
    by_cases hk : k = .reverse
    · subst hk
      exact iff_of_true (by rw [← Option.some.inj hs]) trivial
    · obtain ⟨g, hg, hout⟩ := batch_rbuf hk posting id out e hs he
      obtain ⟨htail, hle⟩ := gather_tail hr.inRange hv id regs.length 0 g hg
      have hsafe : TailSafe k d answers r (.batch regs) ↔
          Closes d r.length.toNat r.tail.toNat (claimedBy k d regs answers r) := by
        cases k with
        | reverse => exact absurd rfl hk
        | write | imm | offset => exact Iff.rfl
      rw [hsafe, hout, ← UInt32.toNat_inj, htail]
      exact closes_iff hr.inRange hle

def down : Status := ⟨.internal, "connection lost"⟩

/-- The second of two messages waits for a head that does not come. -/
theorem batch_tail_ahead : ∃ out e, call .imm WriteChecksum.crc32 .up (.batch [reg 40, reg 40])
      [.error down] (.ok ()) idle 1 = some out ∧
    out.status = .error e ∧ out.rbuf.tail ≠ idle.tail := by
  refine ⟨_, _, rfl, rfl, ?_⟩
  decide

theorem failed_send_iff_ahead : ∃ out e,
    call .imm WriteChecksum.crc32 .up (.batch [reg 40, reg 40]) [.error down] (.ok ()) idle 1 =
      some out ∧ out.status = .error e ∧
    (out.rbuf.tail = idle.tail ↔
      TailSafe .imm .up [.error down] idle (.batch [reg 40, reg 40])) := by
  refine ⟨_, _, rfl, rfl, ?_⟩
  refine failed_send_iff .imm WriteChecksum.crc32 .up (.batch [reg 40, reg 40]) [.error down]
    (.ok ()) idle 1 _ _ ⟨by decide, 4096, 9, 64, [], rfl⟩ ?_ rfl rfl
  intro head hh
  simp at hh

end KYM.FailedSend
