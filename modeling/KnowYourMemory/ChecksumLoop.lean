import KnowYourMemory.WriteChecksum

/-!
# The checksum loop

`WriteReceiver::Receive` one memory access at a time: the content of the ring may be
another one at every access. The loop compares the stored checksum before it has
processed a byte, and compares it later with bytes that it has read before.
-/

set_option autoImplicit false

namespace KYM.ChecksumLoop
open KYM.Circle KYM.RingBuffer KYM.MagicMemory
open KYM.WriteSender (bytesAt)
open KYM.WriteChecksum (crc32 region stored)

/-- What `Receive` does with its next access. The object `result` is known by the
bytes it has processed since it was constructed or reset. -/
inductive Receive where
  | polling
  | parsing
  | testing (length : UInt32) (reg : ReceiveRegion) (result : List UInt8)
  | processing (length : UInt32) (reg : ReceiveRegion) (result : List UInt8)
  | left (length : UInt32) (reg : ReceiveRegion)
  deriving DecidableEq, Repr

def head (d : Direction) (rbuf : Buffer) (mem : ℕ → UInt8) : UInt32 :=
  getU32 (bytesAt rbuf mem (getReadPtr d rbuf) 4)

def processed (rbuf : Buffer) (mem : ℕ → UInt8) (reg : ReceiveRegion) : List UInt8 :=
  bytesAt rbuf mem (reg.addr-8) 4++bytesAt rbuf mem reg.addr reg.length.toNat

def byte (rbuf : Buffer) (mem : ℕ → UInt8) (reg : ReceiveRegion) (i : ℕ) : UInt8 :=
  (processed rbuf mem reg)[i]?.getD 0

section Loop

variable (crc : List UInt8 → UInt32) (d : Direction) (rbuf : Buffer)

def step (mem : ℕ → UInt8) : Receive → Receive
  | .polling => if head d rbuf mem = 0 then .polling else .parsing
  | .parsing =>
    let length := head d rbuf mem
    .testing length (region (getReadPtr d rbuf) length) []
  | .testing length reg result =>
    if stored rbuf mem reg ≠ crc result then .processing length reg [] else .left length reg
  | .processing length reg result =>
    let result := result++[byte rbuf mem reg result.length]
    if result.length < 4+reg.length.toNat then .processing length reg result
    else .testing length reg result
  | .left length reg => .left length reg

def after (mem : ℕ → ℕ → UInt8) : ℕ → Receive
  | 0 => .polling
  | t+1 => step crc d rbuf (mem t) (after mem t)

/-- The access `t` is the test that ends the loop. -/
def LeavesAt (mem : ℕ → ℕ → UInt8) (t : ℕ) (length : UInt32) (reg : ReceiveRegion) : Prop :=
  after crc d rbuf mem t ≠ .left length reg ∧ after crc d rbuf mem (t+1) = .left length reg

/-- The stored checksum is the one of the length word and the payload in the ring. -/
def Verified (mem : ℕ → UInt8) (reg : ReceiveRegion) : Prop :=
  stored rbuf mem reg = crc (processed rbuf mem reg)

instance (mem : ℕ → ℕ → UInt8) (t : ℕ) (length : UInt32) (reg : ReceiveRegion) :
    Decidable (LeavesAt crc d rbuf mem t length reg) := inferInstanceAs (Decidable (_ ∧ _))

instance (mem : ℕ → UInt8) (reg : ReceiveRegion) : Decidable (Verified crc rbuf mem reg) :=
  inferInstanceAs (Decidable (_ = _))

def reads (mem : ℕ → ℕ → UInt8) (reg : ReceiveRegion) (t k : ℕ) : List UInt8 :=
  (List.range k).map (fun i => byte rbuf (mem (t-k+i)) reg i)

/-- A byte that has arrived stays. -/
def Arriving (mem : ℕ → ℕ → UInt8) : Prop := ∀ i j c, i ≤ j → mem i c ≠ 0 → mem j c = mem i c

/-- The first test finds some byte of a checksum, and the accesses of the last round find every
byte of the length word and the payload as it is at the last test. -/
def Found (mem : ℕ → ℕ → UInt8) (first last : ℕ) (reg : ReceiveRegion) : Prop :=
  stored rbuf (mem first) reg ≠ 0 ∧ ∀ i < 4+reg.length.toNat,
    byte rbuf (mem (last-(4+reg.length.toNat)+i)) reg i = byte rbuf (mem last) reg i

/-- From the first test on: no byte is processed, or the first test has found a word
other than zero and the last accesses have read what is processed. -/
def Sound (mem : ℕ → ℕ → UInt8) (first t : ℕ) (length : UInt32) (reg : ReceiveRegion) :
    Receive → Prop
  | .polling | .parsing => False
  | .testing length' reg' result => length' = length ∧ reg' = reg ∧
    ((t = first ∧ result = []) ∨ (stored rbuf (mem first) reg ≠ 0 ∧
      4+reg.length.toNat ≤ t ∧ result = reads rbuf mem reg t (4+reg.length.toNat)))
  | .processing length' reg' result => length' = length ∧ reg' = reg ∧
    stored rbuf (mem first) reg ≠ 0 ∧ result.length < 4+reg.length.toNat ∧
      result.length ≤ t ∧ result = reads rbuf mem reg t result.length
  | .left length' reg' => length' = length ∧ reg' = reg

variable {crc d rbuf} {mem : ℕ → ℕ → UInt8} {p t : ℕ} {length : UInt32} {reg : ReceiveRegion}

theorem processed_length (m : ℕ → UInt8) (reg : ReceiveRegion) :
    (processed rbuf m reg).length = 4+reg.length.toNat := by
  simp [processed, bytesAt, load_length]

theorem processed_ne (m : ℕ → UInt8) (reg : ReceiveRegion) : processed rbuf m reg ≠ [] := by
  intro h
  have hl : (processed rbuf m reg).length = 4+reg.length.toNat := processed_length m reg
  rw [h, List.length_nil] at hl
  omega

theorem reads_length (t k : ℕ) : (reads rbuf mem reg t k).length = k := by simp [reads]

theorem reads_succ (t k : ℕ) (h : k ≤ t) :
    reads rbuf mem reg (t+1) (k+1) = reads rbuf mem reg t k++[byte rbuf (mem t) reg k] := by
  simp only [reads, List.range_succ, List.map_append, List.map_cons, List.map_nil,
    Nat.add_sub_add_right, Nat.sub_add_cancel h]

theorem reads_eq_iff (m : ℕ → UInt8) (t : ℕ) :
    reads rbuf mem reg t (4+reg.length.toNat) = processed rbuf m reg ↔
      ∀ i < 4+reg.length.toNat,
        byte rbuf (mem (t-(4+reg.length.toNat)+i)) reg i = byte rbuf m reg i := by
  have hget : ∀ (i : ℕ) (h : i < (processed rbuf m reg).length),
      (processed rbuf m reg)[i] = byte rbuf m reg i := by
    intro i h
    rw [byte, List.getElem?_eq_getElem h]
    rfl
  constructor
  · intro h i hi
    rw [← hget i (by rw [processed_length]; exact hi)]
    simp [← h, reads]
  · intro h
    apply List.ext_getElem
    · rw [reads_length, processed_length]
    · intro i h1 h2
      rw [reads_length] at h1
      rw [hget i h2, ← h i h1]
      simp [reads]

theorem Sound.step (hcrc : crc [] = 0) {s : Receive} (h : Sound rbuf mem p t length reg s) :
    Sound rbuf mem p (t+1) length reg (step crc d rbuf (mem t) s) := by
  cases s with
  | polling => exact h.elim
  | parsing => exact h.elim
  | testing length' reg' result =>
    obtain ⟨rfl, rfl, hr⟩ := h
    simp only [ChecksumLoop.step]
    split
    next hne =>
      refine ⟨rfl, rfl, ?_, Nat.lt_of_lt_of_le (by decide) (Nat.le_add_right 4 _), Nat.zero_le _,
        rfl⟩
      rcases hr with ⟨rfl, rfl⟩ | ⟨h0, -⟩
      · rwa [hcrc] at hne
      · exact h0
    next => exact ⟨rfl, rfl⟩
  | processing length' reg' result =>
    obtain ⟨rfl, rfl, h0, hlt, hle, hr⟩ := h
    have hnext : result++[byte rbuf (mem t) reg' result.length] =
        reads rbuf mem reg' (t+1) (result.length+1) := by
      rw [reads_succ t _ hle, ← hr]
    simp only [ChecksumLoop.step]
    split
    next h2 =>
      simp only [List.length_append, List.length_singleton] at h2
      refine ⟨rfl, rfl, h0, ?_, ?_, ?_⟩
      · simpa using h2
      · simp only [List.length_append, List.length_singleton]
        omega
      · simpa using hnext
    next h2 =>
      simp only [List.length_append, List.length_singleton] at h2
      refine ⟨rfl, rfl, Or.inr ⟨h0, by omega, ?_⟩⟩
      rw [hnext]
      congr 1
      omega
  | left length' reg' => exact h

theorem polls (hz : ∀ i < t, head d rbuf (mem i) = 0) : after crc d rbuf mem t = .polling := by
  induction t with
  | zero => rfl
  | succ t ih =>
    rw [after, ih (fun i hi => hz i (Nat.lt_succ_of_lt hi))]
    simp [ChecksumLoop.step, hz t (Nat.lt_succ_self t)]

theorem first_test (hz : ∀ i < p, head d rbuf (mem i) = 0) (hp : head d rbuf (mem p) ≠ 0) :
    after crc d rbuf mem (p+2) = .testing (head d rbuf (mem (p+1)))
      (region (getReadPtr d rbuf) (head d rbuf (mem (p+1)))) [] := by
  simp [after, polls hz, ChecksumLoop.step, hp]

theorem after_sound (hcrc : crc [] = 0) (hz : ∀ i < p, head d rbuf (mem i) = 0)
    (hp : head d rbuf (mem p) ≠ 0) (k : ℕ) :
    Sound rbuf mem (p+2) (p+2+k) (head d rbuf (mem (p+1)))
      (region (getReadPtr d rbuf) (head d rbuf (mem (p+1)))) (after crc d rbuf mem (p+2+k)) := by
  induction k with
  | zero =>
    rw [Nat.add_zero, first_test hz hp]
    exact ⟨rfl, rfl, Or.inl ⟨rfl, rfl⟩⟩
  | succ k ih => exact ih.step hcrc

theorem leavesAt_ge (hz : ∀ i < p, head d rbuf (mem i) = 0) (hp : head d rbuf (mem p) ≠ 0)
    (h : LeavesAt crc d rbuf mem t length reg) : p+2 ≤ t := by
  by_contra hlt
  have hcase : t+1 ≤ p ∨ t = p ∨ t = p+1 := by omega
  have hleft := h.2
  rcases hcase with hle | rfl | rfl
  · rw [polls (fun i hi => hz i (by omega))] at hleft
    cases hleft
  · rw [after, polls hz] at hleft
    simp [ChecksumLoop.step, hp] at hleft
  · rw [first_test hz hp] at hleft
    cases hleft

theorem left_test (hcrc : crc [] = 0) (hz : ∀ i < p, head d rbuf (mem i) = 0)
    (hp : head d rbuf (mem p) ≠ 0) (h : LeavesAt crc d rbuf mem t length reg) :
    (t = p+2 ∧ stored rbuf (mem t) reg = 0) ∨
      (stored rbuf (mem (p+2)) reg ≠ 0 ∧ 4+reg.length.toNat ≤ t ∧
        stored rbuf (mem t) reg = crc (reads rbuf mem reg t (4+reg.length.toNat))) := by
  obtain ⟨k, rfl⟩ := Nat.exists_eq_add_of_le (leavesAt_ge hz hp h)
  have hs := after_sound hcrc hz hp k
  obtain ⟨hne, hleft⟩ := h
  rw [after] at hleft
  generalize after crc d rbuf mem (p+2+k) = s at hs hne hleft
  cases s with
  | polling => exact hs.elim
  | parsing => exact hs.elim
  | left length' reg' => exact absurd hleft hne
  | processing length' reg' result =>
    simp only [ChecksumLoop.step] at hleft
    split at hleft <;> cases hleft
  | testing length' reg' result =>
    simp only [ChecksumLoop.step] at hleft
    split at hleft
    · cases hleft
    next heq =>
    obtain ⟨rfl, rfl⟩ := Receive.left.inj hleft
    obtain ⟨rfl, rfl, hr⟩ := hs
    rw [ne_eq, not_not] at heq
    rcases hr with ⟨hk, rfl⟩ | ⟨h0, hle, rfl⟩
    · exact Or.inl ⟨hk, heq.trans hcrc⟩
    · exact Or.inr ⟨h0, hle, heq⟩

theorem leavesAt_region (hcrc : crc [] = 0) (hz : ∀ i < p, head d rbuf (mem i) = 0)
    (hp : head d rbuf (mem p) ≠ 0) (h : LeavesAt crc d rbuf mem t length reg) :
    reg = region (getReadPtr d rbuf) (head d rbuf (mem (p+1))) := by
  obtain ⟨k, rfl⟩ := Nat.exists_eq_add_of_le (leavesAt_ge hz hp h)
  have hs := after_sound hcrc hz hp (k+1)
  rw [← Nat.add_assoc, h.2] at hs
  exact hs.2

/-- When the last round has found what is in the ring at the last test, the message is
verified, whatever the checksum function. -/
theorem found_verified (hcrc : crc [] = 0) (hz : ∀ i < p, head d rbuf (mem i) = 0)
    (hp : head d rbuf (mem p) ≠ 0) (h : LeavesAt crc d rbuf mem t length reg)
    (hf : Found rbuf mem (p+2) t reg) : Verified crc rbuf (mem t) reg := by
  rcases left_test hcrc hz hp h with ⟨rfl, hs⟩ | ⟨-, -, hs⟩
  · exact absurd hs hf.1
  · rw [Verified, hs, (reads_eq_iff (mem t) t).mpr hf.2]

theorem step_congr {crc' : List UInt8 → UInt32} (m : ℕ → UInt8) (s : Receive)
    (h : ∀ length reg result, s = .testing length reg result → crc' result = crc result) :
    step crc' d rbuf m s = step crc d rbuf m s := by
  cases s with
  | testing length reg result => simp only [ChecksumLoop.step, h length reg result rfl]
  | polling | parsing | processing | left => rfl

/-- Checksum functions that agree on what the last accesses before each test have read leave
the loop at the same test. -/
theorem after_congr {crc' : List UInt8 → UInt32} (hcrc : crc [] = 0) (hcrc' : crc' [] = 0)
    (hz : ∀ i < p, head d rbuf (mem i) = 0) (hp : head d rbuf (mem p) ≠ 0)
    (reg : ReceiveRegion) (hreg : reg = region (getReadPtr d rbuf) (head d rbuf (mem (p+1))))
    (t : ℕ) (h : ∀ k < t, crc' (reads rbuf mem reg k (4+reg.length.toNat)) =
      crc (reads rbuf mem reg k (4+reg.length.toNat))) (k : ℕ) (hk : p+2+k ≤ t) :
    after crc' d rbuf mem (p+2+k) = after crc d rbuf mem (p+2+k) := by
  induction k with
  | zero => rw [Nat.add_zero, first_test hz hp, first_test hz hp]
  | succ k ih =>
    have hs := after_sound hcrc hz hp k
    rw [← hreg] at hs
    rw [← Nat.add_assoc, after, after, ih (by omega)]
    apply step_congr
    rintro length' reg' result he
    rw [he] at hs
    obtain ⟨-, rfl, ⟨-, rfl⟩ | ⟨-, -, rfl⟩⟩ := hs
    · rw [hcrc, hcrc']
    · exact h _ (by omega)

theorem byte_cell (rbuf : Buffer) (reg : ReceiveRegion) (i : ℕ) (hi : i < 4+reg.length.toNat) :
    ∃ c, ∀ m, byte rbuf m reg i = m c := by
  by_cases h4 : i < 4
  · refine ⟨((reg.addr-8-rbuf.addr).toNat+i)%rbuf.length.toNat, fun m => ?_⟩
    rw [byte, processed, List.getElem?_append_left (by simpa [bytesAt, load_length] using h4),
      bytesAt, load_getElem _ _ _ _ _ h4, Option.getD_some]
  · refine ⟨((reg.addr-rbuf.addr).toNat+(i-4))%rbuf.length.toNat, fun m => ?_⟩
    rw [byte, processed, List.getElem?_append_right (by simp [bytesAt, load_length]; omega)]
    simp only [bytesAt, load_length]
    rw [load_getElem _ _ _ _ _ (by omega), Option.getD_some]

theorem byte_arriving (ha : Arriving mem) (i : ℕ) (hi : i < 4+reg.length.toNat) {j k : ℕ}
    (hjk : j ≤ k) (h : byte rbuf (mem j) reg i ≠ 0) :
    byte rbuf (mem k) reg i = byte rbuf (mem j) reg i := by
  obtain ⟨c, hc⟩ := byte_cell rbuf reg i hi
  rw [hc] at h
  rw [hc, hc]
  exact ha j k c hjk h

theorem found_later (ha : Arriving mem) (i : ℕ) (hi : i < 4+reg.length.toNat) {j k t : ℕ}
    (hjk : j ≤ k) (hkt : k ≤ t) (h : byte rbuf (mem j) reg i = byte rbuf (mem t) reg i) :
    byte rbuf (mem k) reg i = byte rbuf (mem t) reg i := by
  by_cases h0 : byte rbuf (mem k) reg i = 0
  · by_cases hj : byte rbuf (mem j) reg i = 0
    · rw [h0, ← h, hj]
    · rw [byte_arriving ha i hi hjk hj, h]
  · exact (byte_arriving ha i hi hkt h0).symm

theorem zero_passes (hz : ∀ i < p, head d rbuf (mem i) = 0) (hp : head d rbuf (mem p) ≠ 0)
    (h : LeavesAt crc d rbuf mem (p+2) length reg) (hs : stored rbuf (mem (p+2)) reg = 0) :
    ∃ crc' : List UInt8 → UInt32, crc' [] = 0 ∧ LeavesAt crc' d rbuf mem (p+2) length reg ∧
      ¬ Verified crc' rbuf (mem (p+2)) reg := by
  refine ⟨fun bytes => if bytes = [] then 0 else 1, rfl, ?_, ?_⟩
  · obtain ⟨-, hleft⟩ := h
    rw [after, first_test hz hp] at hleft
    rw [LeavesAt, after.eq_2 _ _ _ _ (p+2), first_test hz hp]
    simp only [ChecksumLoop.step] at hleft ⊢
    split at hleft
    · cases hleft
    · obtain ⟨rfl, rfl⟩ := Receive.left.inj hleft
      rw [if_neg (by simpa using hs)]
      exact ⟨fun hc => (by cases hc), rfl⟩
  · rw [Verified, hs, if_neg (processed_ne _ reg)]
    decide

/-- Where a byte has arrived behind its access of the last round, some checksum function
lets the message pass. -/
theorem unfound_passes (hcrc : crc [] = 0) (ha : Arriving mem)
    (hz : ∀ i < p, head d rbuf (mem i) = 0) (hp : head d rbuf (mem p) ≠ 0)
    (h : LeavesAt crc d rbuf mem t length reg) (hf : ¬ Found rbuf mem (p+2) t reg) :
    ∃ crc' : List UInt8 → UInt32, crc' [] = 0 ∧ LeavesAt crc' d rbuf mem t length reg ∧
      ¬ Verified crc' rbuf (mem t) reg := by
  rcases left_test hcrc hz hp h with ⟨rfl, hs⟩ | ⟨h0, hle, -⟩
  · exact zero_passes hz hp h hs
  have hreg := leavesAt_region hcrc hz hp h
  -- the bytes in the ring get another checksum, which no test up to the last one looks at
  have hold : ∀ k < t+1, Function.update crc (processed rbuf (mem t) reg)
      (stored rbuf (mem t) reg+1) (reads rbuf mem reg k (4+reg.length.toNat)) =
      crc (reads rbuf mem reg k (4+reg.length.toNat)) := by
    intro k hk
    apply Function.update_of_ne
    intro heq
    rw [reads_eq_iff] at heq
    exact hf ⟨h0, fun i hi => found_later ha i hi (by omega) (by omega) (heq i hi)⟩
  have hnil : Function.update crc (processed rbuf (mem t) reg)
      (stored rbuf (mem t) reg+1) [] = 0 := by
    rw [Function.update_of_ne (processed_ne _ reg).symm, hcrc]
  obtain ⟨k, rfl⟩ := Nat.exists_eq_add_of_le (leavesAt_ge hz hp h)
  refine ⟨_, hnil, ?_, ?_⟩
  · rw [LeavesAt, Nat.add_assoc (p+2) k 1,
      after_congr hcrc hnil hz hp reg hreg _ hold k (by omega),
      after_congr hcrc hnil hz hp reg hreg _ hold (k+1) (by omega)]
    exact h
  · rw [Verified, Function.update_self]
    exact fun hc => by simp at hc

/-- A sequence of ring contents lets only verified messages pass, whatever the checksum
function, exactly when the first test finds some byte of a checksum and the last round finds
what is in the ring at the last test. -/
theorem left_verified_iff (crc : List UInt8 → UInt32) (d : Direction) (rbuf : Buffer)
    (mem : ℕ → ℕ → UInt8) (p t : ℕ) (length : UInt32) (reg : ReceiveRegion) (hcrc : crc [] = 0)
    (ha : Arriving mem) (hz : ∀ i < p, head d rbuf (mem i) = 0) (hp : head d rbuf (mem p) ≠ 0)
    (h : LeavesAt crc d rbuf mem t length reg) :
    (∀ crc' : List UInt8 → UInt32, crc' [] = 0 → LeavesAt crc' d rbuf mem t length reg →
      Verified crc' rbuf (mem t) reg) ↔ Found rbuf mem (p+2) t reg := by
  constructor
  · intro hall
    by_contra hf
    obtain ⟨crc', h0, hl, hv⟩ := unfound_passes hcrc ha hz hp h hf
    exact hv (hall crc' h0 hl)
  · intro hf crc' h0 hl
    exact found_verified h0 hz hp hl hf

end Loop

def ring : Buffer := newRingBuffer 4096 9 32

def lengthOnly (_ c : ℕ) : UInt8 := if c = 0 then 12 else 0

def complete (t c : ℕ) : UInt8 :=
  if t < 3 ∧ 8 ≤ c then 0
  else ((putU32 12++putU32 (crc32 (putU32 12++[1, 2, 3, 4]))++[1, 2, 3, 4])[c]?).getD 0

theorem complete_arriving : Arriving complete := by
  intro i j c hij h
  unfold complete at h ⊢
  split at h
  · exact absurd rfl h
  · rw [if_neg (by omega), if_neg (by omega)]

theorem length_left : LeavesAt crc32 .up ring lengthOnly 2 12 (region 4096 12) ∧
    ¬ Verified crc32 ring (lengthOnly 2) (region 4096 12) := by decide +kernel

theorem left_verified_complete : LeavesAt crc32 .up ring complete 11 12 (region 4096 12) ∧
    ((∀ crc' : List UInt8 → UInt32, crc' [] = 0 →
      LeavesAt crc' .up ring complete 11 12 (region 4096 12) →
      Verified crc' ring (complete 11) (region 4096 12)) ↔
      Found ring complete 2 11 (region 4096 12)) := by
  have h : LeavesAt crc32 .up ring complete 11 12 (region 4096 12) := by decide +kernel
  exact ⟨h, left_verified_iff crc32 .up ring complete 0 11 12 _ (by decide +kernel)
    complete_arriving (fun i hi => absurd hi (Nat.not_lt_zero i)) (by decide +kernel) h⟩

end KYM.ChecksumLoop
