/-
What a retry resends.

A retry repeats what is in `sent`, under the proposer's current step. The booked cluster runs the cluster and keeps, for
every node, step and recorder, the proposal that the node's latest `begin_step` at that step sent there. Only a retry
sends without beginning a step, so only a retry leaves the book as it is.

- `Faithful`: every request a step sends is the one in the book.
- `Unmixed`: all replies a proposer holds answer its own step.
- `Composed`: no kickoff finds a hedged proposer past step 4, activated and undecided. Such a kickoff takes the proposer
  back to step 4 with the requests and replies of the step it was at (`Timed.rewinds`), and until its hedge timer fires a
  retry left from step 4, or a late reply to it, is taken for one of them.

`Paired` is what carries the proof: the requests in `sent` are those in the book for the proposer's step.
-/
import Queso.Consensus.Panics
import Queso.Consensus.Rekick

namespace Queso

variable {V : Type}

/-! ## The book -/

/-- for each node, step and recorder, the proposal last prepared -/
abbrev Book (V : Type) := NodeId → ℕ → NodeId → Option (Proposal V)

/-- a request of a begun step is entered -/
def Book.note (b : Book V) (e : Envelope (ConcreteMsg V)) : Book V :=
  match e.payload with
  | .request req => fun i s r => if i = e.src ∧ s = req.reqStep ∧ r = e.dst then some req.proposal else b i s r
  | .response _ => b

/-- an entry after the requests `l`: what all requests for it carry, if there are any -/
theorem Book.note_all {b : Book V} {l : List (Envelope (ConcreteMsg V))} {i s r : ℕ} {x : Proposal V}
    (hall : ∀ k q, ⟨i, r, .request ⟨k, s, q⟩⟩ ∈ l → q = x)
    (hsome : (∃ k, ⟨i, r, .request ⟨k, s, x⟩⟩ ∈ l) ∨ b i s r = some x) : l.foldl Book.note b i s r = some x := by
  induction l generalizing b with
  | nil => exact hsome.resolve_left fun ⟨k, hk⟩ => absurd hk (by simp)
  | cons e l ih =>
    rw [List.foldl_cons]
    refine ih (fun k q hq => hall k q (List.mem_cons_of_mem e hq)) ?_
    rcases hsome with ⟨k, hk⟩ | hb
    · rcases List.mem_cons.1 hk with rfl | hk
      · exact .inr (by simp [Book.note])
      · exact .inl ⟨k, hk⟩
    · right
      obtain ⟨src, dst, payload⟩ := e
      cases payload with
      | response resp => exact hb
      | request req =>
        obtain ⟨k, s', q⟩ := req
        show (if i = src ∧ s = s' ∧ r = dst then some q else b i s r) = some x
        split_ifs with hsame
        · obtain ⟨rfl, rfl, rfl⟩ := hsame
          rw [hall k q (List.mem_cons_self ..)]
        · exact hb

/-- an entry that no request is for stays -/
theorem Book.note_other {b : Book V} {l : List (Envelope (ConcreteMsg V))} {i s r : ℕ}
    (hnone : ∀ k q, ⟨i, r, .request ⟨k, s, q⟩⟩ ∉ l) {x : Proposal V} (hb : b i s r = some x) :
    l.foldl Book.note b i s r = some x :=
  Book.note_all (fun k q hq => absurd hq (hnone k q)) (.inr hb)

/-- the timer of a retry -/
def TimerId.isRetry : TimerId → Bool
  | .retry _ => true
  | _ => false

def Stimulus.isRetry {M : Type} : Stimulus M → Bool
  | .timer id => id.isRetry
  | _ => false

variable [LinearOrder V]

namespace Concrete

/-- the messages that a step sends -/
def newSends (w : Concrete V) (op : ClusterOp) : List (Envelope (ConcreteMsg V)) :=
  (sentOf (step w op).trace).drop (sentOf w.trace).length

/-- the step fires a retry timer -/
def retries (w : Concrete V) : ClusterOp → Bool
  | .env (.fire k _) => (w.timers[k]?).any fun t => t.id.isRetry
  | _ => false

structure Booked (V : Type) where
  world : Concrete V
  book : Book V

/-- a step of the cluster, entered into the book unless it is a retry -/
def Booked.step (b : Booked V) (op : ClusterOp) : Booked V where
  world := Concrete.step b.world op
  book := if retries b.world op then b.book else (newSends b.world op).foldl Book.note b.book

/-- a cluster with nothing prepared -/
def Booked.of (w : Concrete V) : Booked V := ⟨w, fun _ _ _ => none⟩

/-- every request that the step sends carries what its sender's latest `begin_step` at the request's step prepared for
the recorder -/
def Faithful (b : Booked V) (op : ClusterOp) : Prop :=
  ∀ i r req, ⟨i, r, .request req⟩ ∈ newSends b.world op → (b.step op).book i req.reqStep r = some req.proposal

/-- all replies that a proposer has collected answer its own step -/
def Unmixed (w : Concrete V) : Prop :=
  ∀ i nd, w.nodes i = some nd → ∀ j r, nd.proposer.Counted j r → r.reqStep = nd.proposer.step

/-- no kickoff fires at a hedged proposer that has activated, is undecided and stands at another step than the first -/
def Composed (w : Concrete V) : ClusterOp → Prop
  | .env (.fire k _) => ∀ t ∈ w.timers[k]?, t.id = .kickoff → t.fireAt ≤ w.now → w.crashed t.node = false →
      ∀ nd ∈ w.nodes t.node, nd.proposer.decided = none → nd.proposer.activationDelay ≠ 0 →
        nd.proposer.activated = true → nd.proposer.step = FIRST_ROUND_STEP
  | _ => True

instance (w : Concrete V) (op : ClusterOp) : Decidable (Composed w op) := by
  cases op with
  | env op => cases op <;> (unfold Composed; infer_instance)
  | kick i => unfold Composed; infer_instance

/-! ## The pairing of `sent` with `step` -/

/-- the proposer of node `i` stands by the book -/
structure Paired (b : Book V) (i : NodeId) (p : Proposer V) : Prop where
  resting : p.activated = false → p.step = 0 ∨ p.step = FIRST_ROUND_STEP
  prepared : p.activated = true → ∀ r q, p.sent.lookup r = some q → b i p.step r = some q
  answered : ∀ j r, p.Counted j r → r.reqStep = p.step

/-- the callback keeps node `i` by the book `b'`, and sends what is in it -/
structure Keeps (b' : Book V) (i : NodeId) (p' : Proposer V) (fx : List (Effect (ConcreteMsg V))) : Prop where
  paired : Paired b' i p'
  sends : ∀ r req, ⟨i, r, .request req⟩ ∈ sendsOf i fx → b' i req.reqStep r = some req.proposal

omit [LinearOrder V] in
/-- beginning a step enters what it prepares -/
theorem keeps_begins (b : Book V) (i : NodeId) (p : Proposer V) (draw : NodeId → Draw) :
    Keeps ((sendsOf i (p.beginStep draw).2).foldl Book.note b) i (p.beginStep draw).1 (p.beginStep draw).2 := by
  have hentry : ∀ r, r < p.totalReplicas →
      (sendsOf i (p.beginStep draw).2).foldl Book.note b i p.step r = some (p.prepare draw r) := by
    intro r hr
    refine Book.note_all (fun k q hq => ?_) (.inl ⟨p.slot, ?_⟩)
    · obtain ⟨r', -, heq⟩ := (Proposer.mem_sendsOf_beginStep p draw).1 hq
      simp only [Envelope.mk.injEq, ConcreteMsg.request.injEq, RecordRequest.mk.injEq] at heq
      obtain ⟨-, rfl, -, -, rfl⟩ := heq
      rfl
    · exact (Proposer.mem_sendsOf_beginStep p draw).2 ⟨r, hr, rfl⟩
  refine ⟨⟨fun hact => ?_, fun _ r q hq => ?_, fun j r hc => ?_⟩, fun r req hreq => ?_⟩
  · exact absurd hact (by simp)
  · rw [Proposer.beginStep_sent] at hq
    split_ifs at hq with hr
    rw [← hq]
    exact hentry r hr
  · exact absurd hc (by simp [Proposer.Counted])
  · obtain ⟨r', hr', heq⟩ := (Proposer.mem_sendsOf_beginStep p draw).1 hreq
    simp only [Envelope.mk.injEq, ConcreteMsg.request.injEq] at heq
    obtain ⟨-, rfl, rfl⟩ := heq
    exact hentry r hr'

omit [LinearOrder V] in
/-- a callback that sends no request leaves the book -/
theorem keeps_silent {b : Book V} {i : NodeId} {p : Proposer V} {fx : List (Effect (ConcreteMsg V))}
    (hsil : ∀ r req, ⟨i, r, .request req⟩ ∉ sendsOf i fx) (h : Paired b i p) :
    Keeps ((sendsOf i fx).foldl Book.note b) i p fx where
  paired :=
    { resting := h.resting
      prepared := fun hact r q hq => Book.note_other (fun _ _ => hsil r _) (h.prepared hact r q hq)
      answered := h.answered }
  sends := fun r req hreq => absurd hreq (hsil r req)

omit [LinearOrder V] in
theorem Paired.noted {b : Book V} {i src : NodeId} {p : Proposer V} {resp : RecordResponse V} (h : Paired b i p)
    (hreq : resp.reqStep = p.step) : Paired b i (p.noted src resp) where
  resting := h.resting
  prepared := h.prepared
  answered := fun j r hr => by
    rcases Proposer.counted_noted hr with hold | ⟨-, rfl⟩
    · exact h.answered j r hold
    · exact hreq

/-- a reply never breaks the pairing -/
theorem reply_keeps {b : Book V} {i src : NodeId} {p p' : Proposer V} {resp : RecordResponse V} {draw : NodeId → Draw}
    {fx : List (Effect (ConcreteMsg V))} (h : Paired b i p) (hcall : p.onResponse src resp draw = .ok (p', fx)) :
    Keeps ((sendsOf i fx).foldl Book.note b) i p' fx := by
  have hsil : ∀ r req, (⟨i, r, .request req⟩ : Envelope (ConcreteMsg V)) ∉ sendsOf i [] := by simp [sendsOf]
  rcases Proposer.onResponse_moves hcall with ⟨rfl, rfl⟩ | ⟨-, -, hreq, hans⟩
  · exact keeps_silent hsil h
  · cases hans with
    | waits => exact keeps_silent hsil (h.noted hreq)
    | advances => exact keeps_begins b i _ draw
    | jumps => exact keeps_begins b i _ draw
    | decides =>
      have hn : Paired b i (p.noted src resp) := h.noted hreq
      exact keeps_silent hsil ⟨hn.resting, hn.prepared, hn.answered⟩

omit [LinearOrder V] in
/-- a timer keeps the pairing, unless it takes an activated proposer back to step 4 -/
theorem timer_keeps {b : Book V} {i : NodeId} {p p' : Proposer V} {id : TimerId} {localStep : ℕ}
    {draw : NodeId → Draw} {fx : List (Effect (ConcreteMsg V))} (hself : p.selfId = i) (h : Paired b i p)
    (hzero : p.step = 0 → ∀ j r, ¬ p.Counted j r)
    (hkick : id = .kickoff → p.decided = none → p.activationDelay ≠ 0 → p.activated = true → p.step = FIRST_ROUND_STEP)
    (hcall : p.onTimer id localStep draw = .ok (p', fx)) :
    Keeps (if id.isRetry then b else (sendsOf i fx).foldl Book.note b) i p' fx := by
  cases Proposer.onTimer_moves hcall with
  | @quiet _ x _ hfx _ =>
    rw [hself] at hfx
    have hp : Paired b i { p with lastSeenProgress := x } := ⟨h.resting, h.prepared, h.answered⟩
    have hk : Keeps ((sendsOf i fx).foldl Book.note b) i { p with lastSeenProgress := x } fx :=
      keeps_silent (by rw [hfx]; simp) hp
    rw [hfx] at hk ⊢
    simpa using hk
  | restarts => exact keeps_begins b i _ draw
  | activates => exact keeps_begins b i _ draw
  | rewinds hd ha =>
    refine keeps_silent (by simp [sendsOf]) ⟨fun _ => .inr rfl, fun hact => ?_, fun j r hr => ?_⟩
    · -- an activated proposer is rewound only where it stands
      have h4 := hkick rfl hd ha hact
      have hprep := h.prepared hact
      rw [h4] at hprep
      exact hprep
    · cases hact : p.activated with
      | true =>
        have h4 := hkick rfl hd ha hact
        rw [← h4]
        exact h.answered j r hr
      | false =>
        rcases h.resting hact with h0 | h4
        · exact absurd hr (hzero h0 j r)
        · rw [← h4]
          exact h.answered j r hr
  | resends hd hact hfx _ =>
    refine ⟨⟨h.resting, h.prepared, h.answered⟩, fun r req hreq => ?_⟩
    obtain ⟨r', q, hq, heq⟩ := hfx i _ hreq
    simp only [Envelope.mk.injEq, ConcreteMsg.request.injEq] at heq
    obtain ⟨-, rfl, rfl⟩ := heq
    exact h.prepared hact r q hq

/-! ## Runs -/

variable {n : ℕ}

theorem newSends_of {w : Concrete V} {op : ClusterOp} {l : List (Envelope (ConcreteMsg V))}
    (h : sentOf (step w op).trace = sentOf w.trace ++ l) : newSends w op = l := by
  unfold newSends
  rw [h, List.drop_left]

/-- what a booked cluster of `n` replicas keeps -/
structure Standing (n : ℕ) (b : Booked V) : Prop where
  sane : Sane n b.world
  paired : ∀ i nd, b.world.nodes i = some nd → Paired b.book i nd.proposer

/-- **Step lemma.** A composed step sends what is in the book, and keeps every proposer by it. -/
theorem standing_step {b : Booked V} (h : Standing n b) {op : ClusterOp} (hcalm : Composed b.world op)
    (hok : (step b.world op).panicked = none) : Standing n (b.step op) ∧ Faithful b op := by
  -- a step that sends nothing and moves no proposer
  have hstill : (step b.world op).nodes = b.world.nodes → newSends b.world op = [] →
      Standing n (b.step op) ∧ Faithful b op := by
    intro hnodes hsends
    have hbook : (b.step op).book = b.book := by
      unfold Booked.step
      dsimp only
      rw [hsends]
      split_ifs <;> rfl
    refine ⟨⟨sane_step h.sane op, fun i nd hnd => ?_⟩, fun i r req hreq => ?_⟩
    · rw [hbook]
      exact h.paired i nd (by rw [← hnodes]; exact hnd)
    · rw [hsends] at hreq
      exact absurd hreq (by simp)
  have hnone : ∀ {w' : Concrete V}, sentOf w'.trace = sentOf b.world.trace → step b.world op = w' →
      newSends b.world op = [] := by
    rintro w' hw' rfl
    exact newSends_of (by rw [hw', List.append_nil])
  rcases step_turns hok with ⟨eop, -, hquiet⟩ | ⟨i, -, hsame | hkick⟩ |
    ⟨eop, i, x, rng, left, nd, nd', fx, rfl, harises, hcb, htook⟩
  · exact hstill hquiet.nodes (hnone hquiet.sent rfl)
  · exact hstill (by rw [hsame]) (hnone rfl hsame)
  · have hsame : sentOf (b.world.injectTimer i 0 .kickoff).trace = sentOf b.world.trace := rfl
    exact hstill (by rw [hkick]; rfl) (hnone hsame hkick)
  have hsends : newSends b.world (.env eop) = sendsOf i fx := newSends_of hcb.sent
  have hseat := h.sane.arena.seat i nd.proposer (by simp [view, arenaOf, hcb.node])
  have hretry : retries b.world (.env eop) = x.isRetry := by
    cases harises with
    | message => rfl
    | timer hk => simp [retries, hk, Stimulus.isRetry]
    | restart => rfl
  have hbook : (b.step (.env eop)).book = if x.isRetry then b.book else (sendsOf i fx).foldl Book.note b.book := by
    unfold Booked.step
    rw [hretry, hsends]
  have hpaired := h.paired i nd hcb.node
  have hkeeps : Keeps (b.step (.env eop)).book i nd'.proposer fx := by
    rw [hbook]
    cases htook with
    | records => exact keeps_silent (by simp [sendsOf]) ⟨hpaired.resting, hpaired.prepared, hpaired.answered⟩
    | reply hcall => exact reply_keeps hpaired hcall
    | timer hcall =>
      refine timer_keeps hseat.selfId hpaired (fun h0 j r hr => ?_) (fun hid hd ha hact => ?_) hcall
      · -- a reply answers a step from 4 on
        have hans := hpaired.answered j r hr
        have h4 := (h.sane.arena.told i j r (hseat.counted j r hr).1).four
        omega
      · cases harises with
        | timer hk hup hdue => exact hcalm _ hk hid hdue hup nd hcb.node hd ha hact
    | restart => exact keeps_silent (by simp [sendsOf]) hpaired
  refine ⟨⟨sane_step h.sane (.env eop), fun j nd₁ hnd₁ => ?_⟩, fun j r req hreq => ?_⟩
  · rcases callback_node hcb hnd₁ with ⟨rfl, rfl⟩ | ⟨hji, hold⟩
    · exact hkeeps.paired
    · -- nobody else's entries change
      have hp := h.paired j nd₁ hold
      refine ⟨hp.resting, fun hact r q hq => ?_, hp.answered⟩
      rw [hbook]
      split_ifs
      · exact hp.prepared hact r q hq
      · refine Book.note_other (fun k y hy => ?_) (hp.prepared hact r q hq)
        obtain ⟨f, -, hf⟩ := List.mem_filterMap.1 hy
        cases f with
        | send dst payload => exact hji (congrArg Envelope.src (Option.some.inj hf)).symm
        | timer d id => exact absurd hf (by simp)
  · rw [hsends] at hreq
    obtain ⟨f, -, hf⟩ := List.mem_filterMap.1 hreq
    cases f with
    | send dst payload =>
      obtain rfl : i = j := congrArg Envelope.src (Option.some.inj hf)
      exact hkeeps.sends r req hreq
    | timer d id => exact absurd hf (by simp)

/-- what every step of a run sees, every step of the booked run sees -/
theorem along_booked {P : Concrete V → ClusterOp → Prop} {b : Booked V} {ops : List ClusterOp}
    (h : Runs.Along step P b.world ops) : Runs.Along Booked.step (fun b op => P b.world op) b ops := by
  induction ops generalizing b with
  | nil => trivial
  | cons op ops ih => exact ⟨h.1, ih (b := b.step op) h.2⟩

/-- the book does not change the cluster -/
theorem booked_world (b : Booked V) (ops : List ClusterOp) : (Runs.run Booked.step b ops).world = b.world.run ops := by
  induction ops generalizing b with
  | nil => rfl
  | cons op ops ih => exact ih (b.step op)

theorem standing_build (cfg : NodeId → Option (ReplicaCfg V)) : Standing n (.of (build n cfg)) where
  sane := sane_build cfg
  paired := fun i nd hnd => by
    have hprop : (view (build n cfg)).props i = some nd.proposer := by
      have hnode : (build n cfg).nodes i = some nd := hnd
      simp [view, arenaOf, hnode]
    have hfresh := (build_fresh hprop).1
    refine ⟨fun _ => .inl hfresh.step, fun hact r q hq => ?_, fun j r hr => ?_⟩
    · rw [hfresh.sent] at hq
      exact absurd hq (by simp)
    · unfold Proposer.Counted at hr
      rw [hfresh.responses] at hr
      exact absurd hr (by simp)

/-- **A retry resends what its own step prepared**, along every run in which no kickoff finds a hedged proposer past its
first step, activated and undecided; and no proposer ever holds replies to two different steps. -/
theorem retries_by_the_book (n : ℕ) (cfg : NodeId → Option (ReplicaCfg V)) (ops : List ClusterOp)
    (hcalm : Runs.Along step Composed (build n cfg) ops) :
    Runs.Along Booked.step Faithful (.of (build n cfg)) ops ∧
    ∀ l m, ops = l ++ m → Unmixed ((build n cfg).run l) := by
  let I : Booked V → Prop := fun b => Standing n b ∧ Unbroken b.world
  have hstep : ∀ b op, I b → Composed b.world op → I (b.step op) ∧ Faithful b op := by
    intro b op hi hc
    have hu := unbroken_step hi.1.sane hi.2 op
    obtain ⟨hst, hf⟩ := standing_step hi.1 hc hu.panicked
    exact ⟨⟨hst, hu⟩, hf⟩
  have hinit : I (.of (build n cfg)) := ⟨standing_build cfg, unbroken_build cfg⟩
  have halong := along_booked (b := .of (build n cfg)) hcalm
  refine ⟨Runs.along_of_invariant (I := I) (fun b op hi hc => (hstep b op hi hc).1)
    (fun b op hi hc => (hstep b op hi hc).2) hinit halong, ?_⟩
  rintro l m rfl i nd hnd
  have hl : I (Runs.run Booked.step (.of (build n cfg)) l) :=
    Runs.run_invariant (I := I) (fun b op hi hc => (hstep b op hi hc).1) hinit (Runs.along_append.1 halong).1
  refine (hl.1.paired i nd ?_).answered
  rw [booked_world]
  exact hnd

/-! ## A second push -/

/-- replica 0 is hedged by 50 ticks, the others by 500 -/
def lateDelays : ByReplica ℕ := (((∅ : ByReplica ℕ).insert 2 500).insert 1 500).insert 0 50

/-- recorder 0 gets the higher priority -/
def unevenDraw : NodeId → Draw := fun r => drawing (if r = 0 then 5 else 3) r

/-- replica 0 activates, and reaches step 5 on the replies of recorders 0 and 1 -/
def firstPush : List ClusterOp :=
  runSlot 3 ++ [wait 1, fire 0 1, fire 0 1, fire 0 1, wait 50, .env (.fire 0 unevenDraw), wait 1,
    deliver 0 1, deliver 0 1, wait 1, deliver 1 1, deliver 1 1, wait 1, deliver 1 1, wait 1, deliver 3 1, wait 4]

/-- a second push takes replica 0 back to step 4 while its retry timer for step 4 is pending -/
def secondPush : List ClusterOp :=
  runSlot 3 ++ [wait 1, fire 4 1, fire 4 1, fire 4 1, wait 11]

/-- the first push, and a second one before replica 0 has activated -/
theorem retries_by_the_book_early :
    Runs.Along Booked.step Faithful (.of (newWithDelays idValues none lateDelays)) (runSlot 3 ++ firstPush) ∧
    Unmixed ((newWithDelays idValues none lateDelays).run (runSlot 3 ++ firstPush)) := by
  have hcalm : Runs.Along step Composed (newWithDelays idValues none lateDelays) (runSlot 3 ++ firstPush) := by
    decide +kernel
  have h := retries_by_the_book _ _ _ hcalm
  exact ⟨h.1, h.2 _ [] (by simp)⟩

/-- **A second push makes a retry leave the book**: it sends recorder 1, under step 4, what was prepared for step 5. And a
reply to step 5 stays among those collected for step 4. -/
theorem retry_off_the_book :
    ¬ Runs.Along Booked.step Faithful (.of (newWithDelays idValues none lateDelays))
      (firstPush ++ secondPush ++ [fire 2 1]) ∧
    ¬ Unmixed ((newWithDelays idValues none lateDelays).run (firstPush ++ secondPush)) := by
  constructor
  · intro h
    have hlast : Faithful (Runs.run Booked.step (.of (newWithDelays idValues none lateDelays)) (firstPush ++ secondPush))
        (fire 2 1) := (Runs.along_append.1 h).2.1
    have hsent : (⟨0, 1, .request ⟨0, 4, ⟨0, 5, 0⟩⟩⟩ : Envelope (ConcreteMsg ℕ)) ∈
        newSends (Runs.run Booked.step (.of (newWithDelays idValues none lateDelays)) (firstPush ++ secondPush)).world
          (fire 2 1) := by decide +kernel
    have hbook : ((Runs.run Booked.step (.of (newWithDelays idValues none lateDelays)) (firstPush ++ secondPush)).step
        (fire 2 1)).book 0 4 1 = some ⟨0, 3, 0⟩ := by decide +kernel
    have heq := hbook.symm.trans (hlast 0 1 ⟨0, 4, ⟨0, 5, 0⟩⟩ hsent)
    exact absurd heq (by decide)
  · intro h
    have hheld : ((((newWithDelays idValues none lateDelays).run (firstPush ++ secondPush)).nodes 0).bind fun nd =>
        (nd.proposer.responses.lookup 0).map fun r => (r.reqStep, nd.proposer.step)) = some (5, 4) := by decide +kernel
    obtain ⟨nd, hnd, hr⟩ := Option.bind_eq_some_iff.1 hheld
    obtain ⟨r, hr, heq⟩ := Option.map_eq_some_iff.1 hr
    have hsame := h 0 nd hnd 0 r hr
    simp only [Prod.mk.injEq] at heq
    omega

end Concrete

end Queso
