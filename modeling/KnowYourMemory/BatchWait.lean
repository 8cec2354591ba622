import KnowYourMemory.BatchedSend
import KnowYourMemory.SpaceWait

/-!
# Batches that wait for space

A batch posts nothing before all of its messages have found space. The receiver frees
what is posted at once, so the head that it publishes stays at the tail from before the
call for as long as the call waits.
-/

set_option autoImplicit false

namespace KYM.BatchWait
open KYM.Circle KYM.RingBuffer KYM.WriteSenders KYM.BatchedSend KYM.SpaceWait
open KYM.WriteConnection (Sender wrap written)
open KYM.MirroredRings (magicGap)

/-- The messages of a call pack: after `used` bytes, the next one leaves a byte free, or
nothing is in use and it is no longer than the ring. A message as long as the ring leaves
the ring looking empty to the sender. -/
def Packs (L : ℕ) : ℕ → List ℕ → Prop
  | _, [] => True
  | used, n::ns =>
    (if used = 0 then n ≤ L else used+n < L) ∧ Packs L (if used = 0 ∧ n = L then 0 else used+n) ns

instance decidablePacks (L : ℕ) : ∀ (used : ℕ) (ns : List ℕ), Decidable (Packs L used ns)
  | _, [] => isTrue trivial
  | used, n::ns =>
    have := decidablePacks L (if used = 0 ∧ n = L then 0 else used+n) ns
    inferInstanceAs (Decidable (_ ∧ _))

def lengths (k : Sender) (regs : List SendRegion) : List ℕ :=
  regs.map (fun reg => (reg.length+k.overhead).toNat)

/-- The call has claimed `used` bytes behind the tail `start`. A head that is not `start`
is one of before the call, and lies beyond what is claimed. -/
structure Claimed (L : ℕ) (start : UInt32) (used : ℕ) (r : RemoteBuffer) : Prop where
  range : InRange .up L r
  start_lt : start.toNat < L
  used_lt : used < L
  tail : r.tail.toNat = (start.toNat+used)%L
  head : r.head = start ∨ used < magicGap L r.head.toNat start.toNat

section Message

variable {L : ℕ} {start : UInt32} {used : ℕ} {r : RemoteBuffer} {len : UInt32}

theorem tail_cases (h : Claimed L start used r) :
    (start.toNat+used < L ∧ r.tail.toNat = start.toNat+used) ∨
      (L ≤ start.toNat+used ∧ r.tail.toNat = start.toNat+used-L) := by
  have hs := h.start_lt
  have hu := h.used_lt
  have ht := h.tail
  by_cases hlt : start.toNat+used < L
  · exact Or.inl ⟨hlt, by rw [ht, Nat.mod_eq_of_lt hlt]⟩
  · refine Or.inr ⟨by omega, ?_⟩
    rw [ht, Nat.mod_eq_sub_mod (by omega), Nat.mod_eq_of_lt (by omega)]

theorem gap_claimed (L s h t u : ℕ) (hs : s < L) (hh : h < L) (hu : u < magicGap L h s)
    (ht : (s+u < L ∧ t = s+u) ∨ (L ≤ s+u ∧ t = s+u-L)) :
    h ≠ t ∧ magicGap L h t+u = magicGap L h s := by
  unfold magicGap at *
  by_cases h1 : h < s
  · rw [if_pos h1] at hu ⊢
    by_cases h2 : h < t
    · rw [if_pos h2]
      omega
    · rw [if_neg h2]
      omega
  · rw [if_neg h1] at hu ⊢
    rw [if_neg (by omega)]
    omega

theorem Claimed.packs (h : Claimed L start used r) (ha : ∃ a, getWriteAddr .up r len = .ok a) :
    (if used = 0 then len.toNat ≤ L else used+len.toNat < L) ∧
      (r.head = start ∨ used+len.toNat < magicGap L r.head.toNat start.toNat) := by
  have hh : r.head.toNat < L := h.range.head
  have hs := h.start_lt
  have hu := h.used_lt
  have ht := tail_cases h
  rw [magic_accepts h.range] at ha
  rcases h.head with he | hgap
  · rw [he] at ha ⊢
    refine ⟨?_, Or.inl rfl⟩
    unfold magicGap at ha
    split_ifs at ha ⊢ <;> omega
  · obtain ⟨hne, hsum⟩ := gap_claimed _ _ _ _ _ hs hh hgap ht
    have hle := MirroredRings.gap_le hh hs
    rw [if_neg hne] at ha
    refine ⟨?_, Or.inr (by omega)⟩
    split <;> omega

theorem Claimed.accepts (h : Claimed L start used r) (hh : r.head = start) (hf : r.full = false)
    (hp : if used = 0 then len.toNat ≤ L else used+len.toNat < L) :
    ∃ a, getWriteAddr .up r len = .ok a := by
  have hs := h.start_lt
  have hu := h.used_lt
  have ht := tail_cases h
  rw [magic_accepts h.range, hh]
  unfold magicGap
  split_ifs at hp ⊢
  · exact ⟨hf, hp⟩
  all_goals omega

theorem Claimed.write (h : Claimed L start used r) (ha : ∃ a, getWriteAddr .up r len = .ok a) :
    Claimed L start (if used = 0 ∧ len.toNat = L then 0 else used+len.toNat)
      (written .up r len) := by
  obtain ⟨hp, hgap⟩ := h.packs ha
  have hrange := h.range.written ha
  obtain ⟨tail, ht, hw⟩ := written_spec h.range ha
  have hu := h.used_lt
  rw [hw] at hrange ⊢
  have hpos := h.range.pos
  have htail : tail.toNat = (start.toNat+(used+len.toNat))%L := by
    rw [ht]
    show (r.tail.toNat+len.toNat)%L = _
    rw [h.tail, Nat.mod_add_mod, Nat.add_assoc]
  by_cases hfull : used = 0 ∧ len.toNat = L
  · rw [if_pos hfull]
    refine ⟨hrange, h.start_lt, hpos, ?_, ?_⟩
    · rw [htail, hfull.1, hfull.2, Nat.zero_add, Nat.add_mod_right]
      rfl
    · have hh : r.head.toNat < L := h.range.head
      rcases hgap with he | hgap
      · exact Or.inl he
      · have := MirroredRings.gap_le hh h.start_lt
        omega
  · rw [if_neg hfull]
    refine ⟨hrange, h.start_lt, ?_, htail, hgap⟩
    split_ifs at hp <;> omega

theorem Claimed.published (h : Claimed L start used r) :
    Claimed L start used (updateHead .up r start) := by
  have hrange := h.range.updateHead start h.start_lt
  rw [updateHead_eq] at hrange ⊢
  exact ⟨hrange, h.start_lt, h.used_lt, h.tail, Or.inl rfl⟩

theorem Claimed.finds_space (h : Claimed L start used r)
    (hp : if used = 0 then len.toNat ≤ L else used+len.toNat < L) :
    ∃ j addr r₁, (∀ m, getWriteAddrOrDie .up len (List.replicate m (.ok start)) r =
        if m < j then none else some ⟨.ok addr, List.replicate (m-j) (.ok start), r₁⟩) ∧
      Claimed L start (if used = 0 ∧ len.toNat = L then 0 else used+len.toNat)
        (written .up r₁ len) := by
  cases ha : getWriteAddr .up r len with
  | ok addr =>
    refine ⟨0, addr, r, fun m => ?_, h.write ⟨addr, ha⟩⟩
    rw [getWriteAddrOrDie, awaitSpace_ok _ _ _ _ _ ha]
    simp
  | error e =>
    obtain ⟨addr, ha'⟩ := h.published.accepts (by rw [updateHead_eq]) (by rw [updateHead_eq]) hp
    refine ⟨1, addr, updateHead .up r start, fun m => ?_, h.published.write ⟨addr, ha'⟩⟩
    cases m with
    | zero => simp [getWriteAddrOrDie, awaitSpace, ha]
    | succ m =>
      simp only [getWriteAddrOrDie, awaitSpace, ha, List.replicate_succ,
        spaceLoop_ok _ _ _ _ ha']
      simp

theorem Claimed.waits (h : Claimed L start used r)
    (hp : ¬ if used = 0 then len.toNat ≤ L else used+len.toNat < L) (m : ℕ) :
    getWriteAddrOrDie .up len (List.replicate m (.ok start)) r = none := by
  have hrefused : ∀ r₁, Claimed L start used r₁ → ∃ e, getWriteAddr .up r₁ len = .error e := by
    intro r₁ h₁
    cases ha : getWriteAddr .up r₁ len with
    | error e => exact ⟨e, rfl⟩
    | ok addr => exact absurd (h₁.packs ⟨addr, ha⟩).1 hp
  rw [← List.map_replicate, getWriteAddrOrDie, awaitSpace_heads]
  induction m generalizing r with
  | zero =>
    obtain ⟨e, he⟩ := hrefused r h
    exact spaceLoop_nil _ _ e he
  | succ m ih =>
    obtain ⟨e, he⟩ := hrefused r h
    rw [List.replicate_succ, List.map_cons, spaceLoop_head _ _ e _ _ he]
    exact ih h.published

end Message

section Batch

variable {k : Sender} {L : ℕ} {start : UInt32} {used : ℕ} {r : RemoteBuffer}
  {regs : List SendRegion}

theorem gather_ends (crc : List UInt8 → UInt32) (h : Claimed L start used r)
    (hp : Packs L used (lengths k regs)) (id size i : ℕ) : ∃ m wrs rest r', gather k crc .up id size i regs
      (List.replicate m (.ok start)) r = some ⟨.ok wrs, rest, r'⟩ := by
  induction regs generalizing used r i with
  | nil => exact ⟨0, [], [], r, rfl⟩
  | cons reg regs ih =>
    obtain ⟨hfirst, hrest⟩ := hp
    obtain ⟨j, addr, r₁, hspace, hnext⟩ := h.finds_space hfirst
    obtain ⟨m, wrs, rest, r', hg⟩ := ih hnext hrest (i+1)
    refine ⟨m+j, batchWr k crc id size (i+1) reg (reg.length+k.overhead) addr::wrs, rest, r', ?_⟩
    simp only [gather, hspace, if_neg (show ¬ m+j < j by omega), Nat.add_sub_cancel, hg,
      Option.map_some]
    rfl

theorem gather_waits (crc : List UInt8 → UInt32) (h : Claimed L start used r)
    (hp : ¬ Packs L used (lengths k regs)) (id size i m : ℕ) :
    gather k crc .up id size i regs (List.replicate m (.ok start)) r = none := by
  induction regs generalizing used r i m with
  | nil => exact absurd trivial hp
  | cons reg regs ih =>
    by_cases hfirst : if used = 0 then (reg.length+k.overhead).toNat ≤ L
        else used+(reg.length+k.overhead).toNat < L
    · obtain ⟨j, addr, r₁, hspace, hnext⟩ := h.finds_space hfirst
      by_cases hm : m < j
      · simp only [gather, hspace, if_pos hm]
      · have hrest := ih hnext (fun hrest => hp ⟨hfirst, hrest⟩) (i+1) (m-j)
        simp only [gather, hspace, if_neg hm, hrest, Option.map_none]
    · simp only [gather, h.waits hfirst m]

theorem claimed_start (h : InRange .up L r) : Claimed L r.tail 0 r where
  range := h
  start_lt := h.tail
  used_lt := h.pos
  tail := (Nat.mod_eq_of_lt h.tail).symm
  head := by
    have hh : r.head.toNat < L := h.head
    have ht : r.tail.toNat < L := h.tail
    by_cases he : r.head = r.tail
    · exact Or.inl he
    · have hne : r.head.toNat ≠ r.tail.toNat := fun hn => he (UInt32.toNat_inj.mp hn)
      right
      unfold magicGap
      split <;> omega

end Batch

/-- The call returns the id after some number of heads, and has posted a write for each
message of the batch, in order. -/
def PostsAll (k : Sender) (crc : List UInt8 → UInt32) (regs : List SendRegion) (r : RemoteBuffer)
    (id : ℕ) : Prop :=
  ∃ m posted rest r', ∃ cs : List (SendRegion × UInt64),
    sendBatch k crc .up regs (List.replicate m (.ok r.tail)) (.ok ()) r id =
      some ⟨.ok id, posted, rest, r', id+1⟩ ∧
    cs.map Prod.fst = regs ∧ posted.map SendWr.op = cs.map (opOf k crc)++tailOps k r'

/-- A batch ends and posts all of its messages exactly when they pack. -/
theorem batch_posts_iff (k : Sender) (crc : List UInt8 → UInt32) (regs : List SendRegion)
    (r : RemoteBuffer) (id : ℕ) (hk : k ≠ .reverse) (hr : Reachable .up r) :
    PostsAll k crc regs r id ↔ Packs r.length.toNat 0 (lengths k regs) := by
  have hstart := claimed_start hr.inRange
  constructor
  · rintro ⟨m, posted, rest, r', cs, hs, -⟩
    by_contra hp
    have hg := gather_waits crc hstart hp id regs.length 0 m
    cases k with
    | reverse => exact absurd rfl hk
    | write | imm | offset => simp [sendBatch, hg] at hs
  · intro hp
    obtain ⟨m, wrs, rest, r', hg⟩ := gather_ends crc hstart hp id regs.length 0
    obtain ⟨cs, hcs, rfl⟩ := gather_wrs id regs.length 0 _ wrs rest hg
    have hlen : regs.length = cs.length := by rw [← hcs, List.length_map]
    have hsend : sendBatch k crc .up regs (List.replicate m (.ok r.tail)) (.ok ()) r id =
        some ⟨.ok id, batchWrs k crc id cs r', rest, r', id+1⟩ := by
      apply sendBatch_gathered hk id _ rest
      rw [hg, hlen]
    refine ⟨m, batchWrs k crc id cs r', rest, r', cs, hsend, hcs, ?_⟩
    rw [batchWrs_ops, lastWr_ops]

theorem idle_reachable : Reachable .up idle := ⟨by decide, 4096, 9, 64, [], rfl⟩

/-- A batch that waits for a head, behind a message of 40 bytes. -/
theorem batch_posts_iff_loaded :
    sendBatch .imm WriteChecksum.crc32 .up [reg 40, reg 20] [] (.ok ()) loaded 2 = none ∧
    (PostsAll .imm WriteChecksum.crc32 [reg 40, reg 20] loaded 2 ↔ Packs 64 0 [40, 20]) :=
  ⟨by decide, batch_posts_iff .imm WriteChecksum.crc32 [reg 40, reg 20] loaded 2 (by decide)
    ⟨by decide, 4096, 9, 64, [.write 40], rfl⟩⟩

/-- Two messages of 40 bytes on an idle ring of 64. -/
theorem large_batch_waits :
    (∀ m, sendBatch .imm WriteChecksum.crc32 .up [reg 40, reg 40]
      (List.replicate m (.ok idle.tail)) (.ok ()) idle 1 = none) ∧
    ¬ PostsAll .imm WriteChecksum.crc32 [reg 40, reg 40] idle 1 := by
  have hp : ¬ Packs 64 0 (lengths .imm [reg 40, reg 40]) := by decide
  have hwait : ∀ m, sendBatch .imm WriteChecksum.crc32 .up [reg 40, reg 40]
      (List.replicate m (.ok idle.tail)) (.ok ()) idle 1 = none := by
    intro m
    have hg := gather_waits WriteChecksum.crc32 (claimed_start idle_reachable.inRange) hp 1 2 0 m
    simp only [sendBatch, List.length_cons, List.length_nil, hg]
  refine ⟨hwait, ?_⟩
  rintro ⟨m, posted, rest, r', cs, hs, -⟩
  rw [hwait m] at hs
  cases hs

end KYM.BatchWait
