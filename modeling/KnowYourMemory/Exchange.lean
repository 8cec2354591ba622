import KnowYourMemory.Mailbox

/-!
# Two processes and two mailboxes

Each of two processes runs a script of its own: it sends to the other one, takes what the
other one has sent, and frees what it has taken. A mailbox has room for a number of messages
that are not freed; a process that finds no room, or nothing to take, is blocked. A script
may name the message that it expects.
-/

set_option autoImplicit false

namespace KYM.Exchange
open KYM.Run KYM.Mailbox

variable {μ : Type*}

inductive Op (μ : Type*) where
  | send (m : μ)
  | receive (expected : Option μ)
  | free
  deriving DecidableEq, Repr

structure Process (μ : Type*) where
  rest : List (Op μ)
  mismatch : Option (μ × μ)

/-- The mailboxes are named after what they carry. -/
structure Pair (μ : Type*) where
  left : Process μ
  right : Process μ
  there : Box Unit μ
  back : Box Unit μ

def start (l r : List (Op μ)) : Pair μ := ⟨⟨l, none⟩, ⟨r, none⟩, Mailbox.empty, Mailbox.empty⟩

def HasRoom (cap : ℕ) (b : Box Unit μ) : Prop := (b.queue ()).length+b.held.length < cap

instance (cap : ℕ) (b : Box Unit μ) : Decidable (HasRoom cap b) := Nat.decLt _ _

def differs [DecidableEq μ] (expected : Option μ) (m : μ) : Option (μ × μ) :=
  expected.bind (fun e => if e = m then none else some (e, m))

def advance [DecidableEq μ] (cap : ℕ) (p : Process μ) (inbox outbox : Box Unit μ) :
    Option (Process μ × Box Unit μ × Box Unit μ) :=
  match p.mismatch, p.rest with
  | none, .send m::rest =>
    if HasRoom cap outbox then
      (Mailbox.step outbox (.send () m)).map (fun b => (⟨rest, none⟩, inbox, b))
    else none
  | none, .receive expected::rest =>
    (inbox.queue ()).head?.bind (fun m =>
      (Mailbox.step inbox (.receive ())).map (fun b => (⟨rest, differs expected m⟩, b, outbox)))
  | none, .free::rest => (Mailbox.step inbox (.free 0)).map (fun b => (⟨rest, none⟩, b, outbox))
  | _, _ => none

inductive Side where
  | left
  | right
  deriving DecidableEq, Repr

def Side.other : Side → Side
  | .left => .right
  | .right => .left

def step [DecidableEq μ] (cap : ℕ) (s : Pair μ) : Side → Option (Pair μ)
  | .left => (advance cap s.left s.back s.there).map (fun x =>
      { s with left := x.1, back := x.2.1, there := x.2.2 })
  | .right => (advance cap s.right s.there s.back).map (fun x =>
      { s with right := x.1, there := x.2.1, back := x.2.2 })

def Op.message : Op μ → Option μ
  | .send m => some m
  | _ => none

def Op.expects : Op μ → Option (Option μ)
  | .receive expected => some expected
  | _ => none

def Op.frees : Op μ → Option Unit
  | .free => some ()
  | _ => none

def messages (l : List (Op μ)) : List μ := l.filterMap Op.message

def expectations (l : List (Op μ)) : List (Option μ) := l.filterMap Op.expects

def frees (l : List (Op μ)) : List Unit := l.filterMap Op.frees

structure Carries (l₀ r₀ l r : List (Op μ)) (b : Box Unit μ) : Prop where
  sent : of () b.taken++b.queue ()++messages l = messages l₀
  asked : (expectations r₀).drop b.taken.length = expectations r ∧
    b.taken.length+(expectations r).length = (expectations r₀).length
  freed : b.held.length+(frees r₀).length = b.taken.length+(frees r).length

/-- No message is expected where another one is sent. -/
def Agrees (l₀ r₀ : List (Op μ)) : Prop :=
  ∀ (k : ℕ) (e m : μ), (expectations r₀)[k]? = some (some e) → (messages l₀)[k]? = some m → e = m

theorem of_unit (xs : List (Unit × μ)) : of () xs = xs.map Prod.snd := by
  simp [of]

theorem carries_start (l r : List (Op μ)) : Carries l r l r Mailbox.empty :=
  ⟨rfl, ⟨rfl, Nat.zero_add _⟩, by simp [Mailbox.empty]⟩

section Calls

variable {l₀ r₀ l r rest : List (Op μ)} {b b' : Box Unit μ} {m : μ}

theorem Carries.passed (h : Carries l₀ r₀ l r b) (rest : List (Op μ)) (c : Call Unit μ)
    (hs : Mailbox.step b c = some b') (hl : messages l = c.sent ()++messages rest) :
    of () b'.taken++b'.queue ()++messages rest = messages l₀ := by
  rw [← step_fifo b b' c hs (), List.append_assoc, ← hl]
  exact h.sent

theorem Carries.send (h : Carries l₀ r₀ (.send m::rest) r b)
    (hs : Mailbox.step b (.send () m) = some b') : Carries l₀ r₀ rest r b' := by
  have hsent := h.passed rest (.send () m) hs rfl
  obtain rfl := Option.some.inj hs
  exact ⟨hsent, h.asked, h.freed⟩

theorem Carries.receive {expected : Option μ} (h : Carries l₀ r₀ l (.receive expected::rest) b)
    (hq : (b.queue ()).head? = some m) (hs : Mailbox.step b (.receive ()) = some b') :
    Carries l₀ r₀ l rest b' ∧ (expectations r₀)[b.taken.length]? = some expected ∧
      (messages l₀)[b.taken.length]? = some m := by
  obtain ⟨ms, hms⟩ : ∃ ms, b.queue () = m::ms := by
    cases hb : b.queue () with
    | nil => simp [hb] at hq
    | cons x ms =>
      rw [hb, List.head?_cons, Option.some.injEq] at hq
      exact ⟨ms, by rw [hq]⟩
  have hpassed := h.passed l (.receive ()) hs rfl
  simp only [Mailbox.step, hms] at hs
  obtain rfl := Option.some.inj hs
  obtain ⟨hdrop, hlen⟩ := h.asked
  have hsent := h.sent
  have hfreed := h.freed
  simp only [expectations, frees, List.filterMap_cons, Op.expects, Op.frees] at hdrop hlen hfreed
  rw [hms] at hsent
  have hexp : (expectations r₀)[b.taken.length]? = some expected := by
    rw [← Nat.add_zero b.taken.length, ← List.getElem?_drop]
    exact congrArg (·[0]?) hdrop
  refine ⟨⟨hpassed, ⟨?_, ?_⟩, ?_⟩, hexp, ?_⟩
  · rw [List.length_append, List.length_singleton, ← List.tail_drop]
    exact congrArg List.tail hdrop
  · simp only [List.length_append, List.length_cons, List.length_nil, expectations] at hlen ⊢
    omega
  · simp only [List.length_append, List.length_singleton, frees] at hfreed ⊢
    omega
  · rw [← hsent, of_unit]
    simp

theorem Carries.free (h : Carries l₀ r₀ l (.free::rest) b)
    (hs : Mailbox.step b (.free 0) = some b') : Carries l₀ r₀ l rest b' := by
  have hsent := h.passed l (.free 0) hs rfl
  simp only [Mailbox.step, Option.ite_none_right_eq_some] at hs
  obtain ⟨hpos, hs⟩ := hs
  obtain rfl := Option.some.inj hs
  have hfreed := h.freed
  simp only [frees, List.filterMap_cons, Op.frees, List.length_cons] at hfreed
  refine ⟨hsent, h.asked, ?_⟩
  rw [List.length_eraseIdx_of_lt hpos]
  simp only [frees]
  omega

theorem Carries.skip_send (h : Carries l₀ r₀ l (.send m::rest) b) : Carries l₀ r₀ l rest b :=
  ⟨h.sent, h.asked, h.freed⟩

theorem Carries.skip_receive {expected : Option μ}
    (h : Carries l₀ r₀ (.receive expected::rest) r b) : Carries l₀ r₀ rest r b :=
  ⟨h.sent, h.asked, h.freed⟩

theorem Carries.skip_free (h : Carries l₀ r₀ (.free::rest) r b) : Carries l₀ r₀ rest r b :=
  ⟨h.sent, h.asked, h.freed⟩

end Calls

/-- Both mailboxes are accounted for, and a wrong message was found only where another one
was expected. -/
structure Sound (l₀ r₀ : List (Op μ)) (s : Pair μ) : Prop where
  there : Carries l₀ r₀ s.left.rest s.right.rest s.there
  back : Carries r₀ l₀ s.right.rest s.left.rest s.back
  left : Agrees r₀ l₀ → s.left.mismatch = none
  right : Agrees l₀ r₀ → s.right.mismatch = none
  suffixes : s.left.rest <:+ l₀ ∧ s.right.rest <:+ r₀

theorem start_sound (l₀ r₀ : List (Op μ)) : Sound l₀ r₀ (start l₀ r₀) :=
  ⟨carries_start l₀ r₀, carries_start r₀ l₀, fun _ => rfl, fun _ => rfl, List.suffix_refl _,
    List.suffix_refl _⟩

section Steps

variable [DecidableEq μ] {cap : ℕ} {l₀ r₀ other : List (Op μ)} {p q : Process μ}
  {inbox outbox inbox' outbox' : Box Unit μ} {s t : Pair μ}

theorem advance_carries (hin : Carries r₀ l₀ other p.rest inbox)
    (hout : Carries l₀ r₀ p.rest other outbox)
    (hs : advance cap p inbox outbox = some (q, inbox', outbox')) :
    Carries r₀ l₀ other q.rest inbox' ∧ Carries l₀ r₀ q.rest other outbox' ∧
      (Agrees r₀ l₀ → q.mismatch = none) ∧ ∃ op, p.rest = op::q.rest := by
  unfold advance at hs
  split at hs
  · next m rest _ hrest =>
    rw [hrest] at hin hout
    split at hs
    case isFalse => cases hs
    obtain ⟨b, hb, he⟩ := Option.map_eq_some_iff.mp hs
    simp only [Prod.mk.injEq] at he
    obtain ⟨rfl, rfl, rfl⟩ := he
    exact ⟨hin.skip_send, hout.send hb, fun _ => rfl, _, hrest⟩
  · next expected rest _ hrest =>
    rw [hrest] at hin hout
    obtain ⟨m, hm, hs⟩ := Option.bind_eq_some_iff.mp hs
    obtain ⟨b, hb, he⟩ := Option.map_eq_some_iff.mp hs
    simp only [Prod.mk.injEq] at he
    obtain ⟨rfl, rfl, rfl⟩ := he
    obtain ⟨hin, hexp, hmsg⟩ := hin.receive hm hb
    refine ⟨hin, hout.skip_receive, fun ha => ?_, _, hrest⟩
    cases expected with
    | none => rfl
    | some e => simp [differs, ha _ e m hexp hmsg]
  · next rest _ hrest =>
    rw [hrest] at hin hout
    obtain ⟨b, hb, he⟩ := Option.map_eq_some_iff.mp hs
    simp only [Prod.mk.injEq] at he
    obtain ⟨rfl, rfl, rfl⟩ := he
    exact ⟨hin.free hb, hout.skip_free, fun _ => rfl, _, hrest⟩
  · cases hs

theorem step_sound (h : Sound l₀ r₀ s) (side : Side) (hs : step cap s side = some t) :
    Sound l₀ r₀ t ∧
      t.left.rest.length+t.right.rest.length+1 = s.left.rest.length+s.right.rest.length := by
  obtain ⟨hsl, hsr⟩ := h.suffixes
  cases side with
  | left =>
    obtain ⟨⟨q, i, o⟩, hx, rfl⟩ := Option.map_eq_some_iff.mp hs
    obtain ⟨hback, hthere, hq, op, hop⟩ := advance_carries h.back h.there hx
    refine ⟨⟨hthere, hback, hq, h.right, List.IsSuffix.trans ⟨[op], hop.symm⟩ hsl, hsr⟩, ?_⟩
    simp only [hop, List.length_cons]
    omega
  | right =>
    obtain ⟨⟨q, i, o⟩, hx, rfl⟩ := Option.map_eq_some_iff.mp hs
    obtain ⟨hthere, hback, hq, op, hop⟩ := advance_carries h.there h.back hx
    refine ⟨⟨hthere, hback, h.left, hq, hsl, List.IsSuffix.trans ⟨[op], hop.symm⟩ hsr⟩, ?_⟩
    simp only [hop, List.length_cons]
    omega

theorem run_sound (es : List Side) (h : Sound l₀ r₀ s) (hs : run (step cap) es s = some t) :
    Sound l₀ r₀ t ∧ es.length+t.left.rest.length+t.right.rest.length =
      s.left.rest.length+s.right.rest.length := by
  induction es generalizing s with
  | nil =>
    obtain rfl := Option.some.inj hs
    exact ⟨h, by rw [List.length_nil, Nat.zero_add]⟩
  | cons e es ih =>
    obtain ⟨u, hu, hut⟩ := (run_cons (step cap) e es s t).mp hs
    obtain ⟨hsu, hlen⟩ := step_sound h e hu
    obtain ⟨hst, hrest⟩ := ih hsu hut
    refine ⟨hst, ?_⟩
    rw [List.length_cons]
    omega

end Steps

def counts (l : List (Op μ)) : ℕ × ℕ × ℕ :=
  ((messages l).length, (expectations l).length, (frees l).length)

@[simp] theorem counts_nil : counts ([] : List (Op μ)) = (0, 0, 0) := rfl

@[simp] theorem counts_send (m : μ) (l : List (Op μ)) :
    counts (.send m::l) = ((counts l).1+1, (counts l).2.1, (counts l).2.2) := rfl

@[simp] theorem counts_receive (e : Option μ) (l : List (Op μ)) :
    counts (.receive e::l) = ((counts l).1, (counts l).2.1+1, (counts l).2.2) := rfl

@[simp] theorem counts_free (l : List (Op μ)) :
    counts (.free::l) = ((counts l).1, (counts l).2.1, (counts l).2.2+1) := rfl

/-- Every message is received by the other side, and freed. -/
def Settles (l r : List (Op μ)) : Prop :=
  (counts l).1 = (counts r).2.1 ∧ (counts r).2.2 = (counts r).2.1

def CanGo (cap : ℕ) : List (Op μ) → List (Op μ) → Prop
  | [], _ => False
  | .send m::l, r => (counts r).2.2 < (counts (.send m::l)).1+cap
  | .receive e::l, r => (counts r).1 < (counts (.receive e::l)).2.1
  | .free::l, _ => (counts (.free::l)).2.1 < (counts (.free::l)).2.2

def Box.Empty (b : Box Unit μ) : Prop := b.queue () = [] ∧ b.held = []

structure Finished (s : Pair μ) : Prop where
  left : s.left.rest = []
  right : s.right.rest = []
  there : Box.Empty s.there
  back : Box.Empty s.back

/-- `for (int i = first; ...; i++)` with the number of its rounds. -/
def loop (body : ℕ → List (Op μ)) : ℕ → ℕ → List (Op μ)
  | _, 0 => []
  | i, rounds+1 => body i++loop body (i+1) rounds

def Always (P : List (Op μ) → Prop) : List (Op μ) → Prop
  | [] => P []
  | op::l => P (op::l) ∧ Always P l

theorem always_suffix {P : List (Op μ) → Prop} {l r : List (Op μ)} (h : Always P l) (hs : r <:+ l) :
    P r := by
  induction l with
  | nil => exact List.suffix_nil.mp hs ▸ h
  | cons op l ih =>
    rcases List.suffix_cons_iff.mp hs with rfl | hs
    · exact h.1
    · exact ih h.2 hs

/-- However the two processes are scheduled, neither finds a wrong message, and they go on
until both have come to their end. -/
def Ends [DecidableEq μ] (cap : ℕ) (l r : List (Op μ)) : Prop :=
  ∀ (es : List Side) (s : Pair μ), run (step cap) es (start l r) = some s →
    s.left.mismatch = none ∧ s.right.mismatch = none ∧
    es.length+s.left.rest.length+s.right.rest.length = l.length+r.length ∧
    ((∃ side, (step cap s side).isSome) ∨ Finished s)

section Progress

variable {l₀ r₀ l r : List (Op μ)} {b inbox outbox : Box Unit μ} {cap : ℕ} {p : Process μ}

theorem Carries.fill (h : Carries l₀ r₀ l r b) (hb : Settles l₀ r₀) :
    (b.queue ()).length+(counts l).1 = (counts r).2.1 ∧
      b.held.length+(counts r).2.1 = (counts r).2.2 := by
  have hsent := congrArg List.length h.sent
  have hasked := h.asked.2
  have hfreed := h.freed
  obtain ⟨h1, h2⟩ := hb
  simp only [of_unit, List.length_append, List.length_map] at hsent
  simp only [counts] at h1 h2 ⊢
  omega

theorem Carries.empty (h : Carries l₀ r₀ [] [] b) (hb : Settles l₀ r₀) : Box.Empty b := by
  obtain ⟨hq, hh⟩ := h.fill hb
  simp only [counts, messages, expectations, frees, List.filterMap_nil, List.length_nil] at hq hh
  exact ⟨List.eq_nil_of_length_eq_zero (by omega), List.eq_nil_of_length_eq_zero (by omega)⟩

theorem advance_ready [DecidableEq μ] (hm : p.mismatch = none)
    (hin : Carries r₀ l₀ r p.rest inbox) (hout : Carries l₀ r₀ p.rest r outbox)
    (hb : Settles l₀ r₀) (hb' : Settles r₀ l₀) (hgo : CanGo cap p.rest r) :
    (advance cap p inbox outbox).isSome := by
  obtain ⟨rest, mismatch⟩ := p
  obtain rfl : mismatch = none := hm
  obtain ⟨hqi, hhi⟩ := hin.fill hb'
  obtain ⟨hqo, hho⟩ := hout.fill hb
  simp only at hqi hhi hqo hho hgo
  cases rest with
  | nil => exact hgo.elim
  | cons op rest =>
    cases op with
    | send m =>
      have hroom : HasRoom cap outbox := by
        simp only [CanGo] at hgo
        simp only [HasRoom]
        omega
      simp [advance, hroom, Mailbox.step]
    | receive e =>
      simp only [CanGo] at hgo
      obtain ⟨m, ms, hq⟩ := List.exists_cons_of_length_pos (l := inbox.queue ()) (by omega)
      simp [advance, hq, Mailbox.step]
    | free =>
      simp only [CanGo] at hgo
      have hpos : 0 < inbox.held.length := by omega
      simp [advance, Mailbox.step, hpos]

/-- Two scripts end if at no time both are blocked. -/
theorem ends_of_progress [DecidableEq μ] (hb : Settles l₀ r₀) (hb' : Settles r₀ l₀)
    (hl : Agrees l₀ r₀) (hr : Agrees r₀ l₀)
    (hgo : ∀ l r, l <:+ l₀ → r <:+ r₀ → (counts l).1 ≤ (counts r).2.1 → (counts r).1 ≤ (counts l).2.1 →
      l ≠ [] ∨ r ≠ [] → CanGo cap l r ∨ CanGo cap r l) : Ends cap l₀ r₀ := by
  intro es s hs
  obtain ⟨h, hlen⟩ := run_sound es (start_sound l₀ r₀) hs
  refine ⟨h.left hr, h.right hl, hlen, ?_⟩
  by_cases hdone : s.left.rest = [] ∧ s.right.rest = []
  · obtain ⟨hdl, hdr⟩ := hdone
    have hthere := h.there
    have hback := h.back
    rw [hdl, hdr] at hthere hback
    exact Or.inr ⟨hdl, hdr, hthere.empty hb, hback.empty hb'⟩
  · obtain ⟨hq, -⟩ := h.there.fill hb
    obtain ⟨hq', -⟩ := h.back.fill hb'
    rcases hgo _ _ h.suffixes.1 h.suffixes.2 (by omega) (by omega) (by tauto) with hgo | hgo
    · have hready := advance_ready (h.left hr) h.back h.there hb hb' hgo
      exact Or.inl ⟨.left, by simpa [step] using hready⟩
    · have hready := advance_ready (h.right hl) h.there h.back hb' hb hgo
      exact Or.inl ⟨.right, by simpa [step] using hready⟩

/-- Scripts that end have a run to the end. -/
theorem Ends.finishes [DecidableEq μ] (h : Ends cap l₀ r₀) :
    ∃ es s, run (step cap) es (start l₀ r₀) = some s ∧ Finished s := by
  have hgoal : ∀ (n : ℕ) (es : List Side) (s : Pair μ), run (step cap) es (start l₀ r₀) = some s →
      s.left.rest.length+s.right.rest.length ≤ n →
      ∃ es s, run (step cap) es (start l₀ r₀) = some s ∧ Finished s := by
    intro n
    induction n with
    | zero =>
      intro es s hs hn
      obtain ⟨-, -, -, ⟨side, hside⟩ | hfin⟩ := h es s hs
      · obtain ⟨t, ht⟩ := Option.isSome_iff_exists.mp hside
        have hlen := (step_sound (run_sound es (start_sound l₀ r₀) hs).1 side ht).2
        omega
      · exact ⟨es, s, hs, hfin⟩
    | succ n ih =>
      intro es s hs hn
      obtain ⟨-, -, -, ⟨side, hside⟩ | hfin⟩ := h es s hs
      · obtain ⟨t, ht⟩ := Option.isSome_iff_exists.mp hside
        have hlen := (step_sound (run_sound es (start_sound l₀ r₀) hs).1 side ht).2
        exact ih (es++[side]) t (run_concat (step cap) es side _ s t hs ht) (by omega)
      · exact ⟨es, s, hs, hfin⟩
  exact hgoal _ [] _ rfl (le_refl _)

theorem Carries.settles (h : Carries l₀ r₀ [] [] b) (he : Box.Empty b) : Settles l₀ r₀ := by
  have hsent := congrArg List.length h.sent
  have hasked := h.asked.2
  have hfreed := h.freed
  simp only [of_unit, he.1, he.2, messages, expectations, frees, List.filterMap_nil, List.length_append,
    List.length_map, List.length_nil] at hsent hasked hfreed
  simp only [Settles, counts, messages, expectations, frees]
  omega

theorem Ends.settles [DecidableEq μ] (h : Ends cap l₀ r₀) : Settles l₀ r₀ ∧ Settles r₀ l₀ := by
  obtain ⟨es, s, hs, hfin⟩ := h.finishes
  obtain ⟨hsound, -⟩ := run_sound es (start_sound l₀ r₀) hs
  have hthere := hsound.there
  have hback := hsound.back
  rw [hfin.left, hfin.right] at hthere hback
  exact ⟨hthere.settles hfin.there, hback.settles hfin.back⟩

end Progress

end KYM.Exchange
