/-
What calling `start` again does to a slot.

`run_slot` kicks every live replica on each call, so an undecided proposer restarts round 1 with whatever working
proposal it has by then, while requests and replies of its earlier pass are in flight. A reply names a step and not the
proposal it answers.

Results:
- `rekick_splits`: two calls of `run_slot` on three leaderless replicas make two of them decide different values. The
  restarted proposer re-enters step 5 with another proposal than before, counts two replies to its earlier one, and so
  never spreads what it then decides;
- `rekick_safe`: along runs that never take such a step, decisions agree; and a decided proposer is frozen in any run;
- `rekick_retags`: two calls of `run_slot` make the leader send two different `H` proposals;
- `one_h_proposal_iff`: all `H` requests of a run carry the leader's initial value exactly if the leader still works on
  it whenever it begins round 1.
-/
import Queso.Consensus.Agreement

namespace Queso

open Register Quorum

variable {V : Type}

namespace Concrete

/-- the push of one `run_slot` over `n` live replicas -/
def runSlot (n : ℕ) : List ClusterOp := (List.range n).map .kick

def wait (d : ℕ) : ClusterOp := .env (.tick d)

def fire (k p : ℕ) : ClusterOp := .env (.fire k (drawing p))

def deliver (k p : ℕ) : ClusterOp := .env (.deliver k (drawing p))

/-- replicas 0, 1, 2, each with its id as initial value -/
def idValues : ByReplica ℕ := (((∅ : ByReplica ℕ).insert 2 2).insert 1 1).insert 0 0

/-! ## Agreement -/

/-- first pass: replicas 0 and 1 reach step 5 with value 1, replica 2 with value 2; replica 1 decides its value while two
replies to replica 0's requests of step 5 stay in flight -/
def firstPass : List ClusterOp :=
  runSlot 3 ++
  [wait 1, fire 0 1, fire 0 2, fire 0 9, wait 20, fire 0 1, wait 1,
    deliver 0 1, deliver 3 1, deliver 6 1, deliver 6 1, deliver 0 1, deliver 1 1, deliver 2 1, wait 1,
    deliver 5 1, deliver 8 1, deliver 8 1, deliver 5 1, deliver 7 1, deliver 5 1, wait 1,
    deliver 14 1, deliver 6 1, deliver 6 1, deliver 7 1, deliver 7 1, wait 1, deliver 13 1, deliver 13 1, wait 1,
    deliver 13 1, deliver 13 1, wait 1, deliver 14 1, deliver 14 1]

/-- second pass: replica 0 restarts, catches up to step 5 with value 2, leaves it on the two old replies, and decides in
round 2 -/
def secondPass : List ClusterOp :=
  runSlot 3 ++
  [wait 1, fire 7 1, fire 7 1, fire 7 1, wait 1, deliver 0 1, wait 1, deliver 19 1, deliver 4 1, wait 1,
    deliver 9 1, deliver 9 1, wait 1, deliver 19 1, deliver 19 1, wait 1, deliver 20 1, deliver 20 1, wait 1,
    deliver 20 1, deliver 20 1, wait 1, deliver 21 7, deliver 21 7, wait 1, deliver 21 1, deliver 21 1, wait 1,
    deliver 22 1, deliver 22 1, wait 1, deliver 22 1, deliver 22 1, wait 1, deliver 23 1, deliver 23 1, wait 1,
    deliver 23 1, deliver 23 1, wait 1, deliver 24 1, deliver 24 1]

/-- **Two pushes split a slot.** -/
theorem rekick_splits :
    ((newWithDelays idValues none ∅).run (firstPass ++ secondPass)).decided 0 = some 2 ∧
    ((newWithDelays idValues none ∅).run (firstPass ++ secondPass)).decided 1 = some 1 := by
  decide +kernel

variable [LinearOrder V]

/-- **Agreement under repeated start.** However often `run_slot` is called, along covered steps all decisions are on one
value; and in any run a decided proposer keeps its decision, its step and what it reports of the fast path. -/
theorem rekick_safe (initialValues : ByReplica V) (leader : Option NodeId) (activationDelays : ByReplica ℕ)
    (ops : List ClusterOp) :
    (Runs.Along step CoveredStep (newWithDelays initialValues leader activationDelays) ops →
      ∀ i j v v', ((newWithDelays initialValues leader activationDelays).run ops).decided i = some v →
        ((newWithDelays initialValues leader activationDelays).run ops).decided j = some v' → v = v') ∧
    (∀ l m i nd v, ops = l ++ m →
      ((newWithDelays initialValues leader activationDelays).run l).nodes i = some nd → nd.proposer.decided = some v →
      ∃ nd', ((newWithDelays initialValues leader activationDelays).run ops).nodes i = some nd' ∧
        nd'.proposer.decided = some v ∧ nd'.proposer.step = nd.proposer.step ∧
        nd'.proposer.decidedViaFastPath = nd.proposer.decidedViaFastPath) := by
  constructor
  · intro hcov i j v v' hv hv'
    have hleader : ∀ k c, ((initialValues.lookup k).map fun v =>
        (⟨v, leader, some ((activationDelays.lookup k).getD 0)⟩ : ReplicaCfg V)) = some c → c.leader = leader := by
      intro k c hc
      obtain ⟨x, -, rfl⟩ := Option.map_eq_some_iff.1 hc
      rfl
    exact covered_agreement hleader hcov hv hv'
  · rintro l m i nd v rfl hnd hd
    have hsane : Sane initialValues.keys.length ((newWithDelays initialValues leader activationDelays).run l) :=
      sane_run _ l
    obtain ⟨nd', hnd', hd', hs'⟩ := decision_frozen hsane m hnd hd
    refine ⟨nd', by rwa [run, Runs.run_append], hd', hs', ?_⟩
    unfold Proposer.decidedViaFastPath
    rw [hd', hs', hd]

/-- replica 2 goes ahead and reaches step 5 -/
def oneAhead : List ClusterOp :=
  runSlot 3 ++ [wait 1, fire 0 1, fire 0 2, fire 0 9, deliver 7 1, deliver 7 1, deliver 7 1, deliver 7 1]

/-- the push of another `run_slot`, after which all messages arrive in the order they were sent in -/
def pushedAgain : List ClusterOp :=
  runSlot 3 ++ [wait 1, fire 4 1, fire 4 1, fire 4 1] ++ List.replicate 73 (deliver 0 1)

/-- replica 2 leaves step 5 undecided when it is started again, and then all three decide its value -/
theorem rekick_safe_pushedAgain :
    (∃ nd ∈ ((newWithDelays idValues none ∅).run oneAhead).nodes 2, nd.proposer.step = 5 ∧ nd.proposer.decided = none) ∧
    ((newWithDelays idValues none ∅).run (oneAhead ++ pushedAgain)).decided 0 = some 2 ∧
    ((newWithDelays idValues none ∅).run (oneAhead ++ pushedAgain)).decided 2 = some 2 ∧
    ∀ i v, ((newWithDelays idValues none ∅).run (oneAhead ++ pushedAgain)).decided i = some v → v = 2 := by
  have hdec : ((newWithDelays idValues none ∅).run (oneAhead ++ pushedAgain)).decided 2 = some 2 := by decide +kernel
  have hcov : Runs.Along step CoveredStep (newWithDelays idValues none ∅) (oneAhead ++ pushedAgain) := by decide +kernel
  exact ⟨by decide +kernel, by decide +kernel, hdec,
    fun i v hv => (rekick_safe idValues none ∅ (oneAhead ++ pushedAgain)).1 hcov i 2 v 2 hv hdec⟩

/-! ## The `H` invariant -/

/-- whenever the leader's proposer begins round 1, it works on its initial value -/
def KeepsInitial (initialValues : ByReplica V) (w : Concrete V) : ClusterOp → Prop
  | .env (.fire k _) => w.panicked = none → ∀ t ∈ w.timers[k]?, t.fireAt ≤ w.now → w.crashed t.node = false →
      ∀ nd ∈ w.nodes t.node, nd.proposer.leader = some t.node → nd.proposer.Reopens t.id nd.localStep →
        initialValues.lookup t.node = some nd.proposer.proposal.value
  | _ => True

/-- every request sent with priority `H` carries the leader's initial value, with the leader as its origin -/
def OneH (initialValues : ByReplica V) (leader : Option NodeId) (w : Concrete V) : Prop :=
  ∀ i j req, ⟨i, j, .request req⟩ ∈ sentOf w.trace → req.proposal.priority = H →
    ∃ m v, leader = some m ∧ initialValues.lookup m = some v ∧ req.proposal = ⟨v, H, m⟩

variable {n : ℕ} {w : Concrete V}

theorem oneH_step {initialValues : ByReplica V} {leader : Option NodeId} (h : Sane n w)
    (hl : Arena.Led leader 0 (view w)) (ho : OneH initialValues leader w) {op : ClusterOp}
    (hk : KeepsInitial initialValues w op) : OneH initialValues leader (step w op) := by
  intro i j req he hH
  have he' : ⟨i, j, .request req⟩ ∈ (view (step w op)).sends := he
  rcases sim_step h op with hsame | ⟨act, hdid, hact⟩
  · rw [hsame] at he'
    exact ho i j req he' hH
  · rw [hact] at he'
    rcases Arena.new_request h.arena (h.allowed hdid) he' with hmem | hmade
    · exact ho i j req hmem hH
    · cases hmade with
      | @copied t hx =>
        obtain ⟨i', j', hx⟩ := hx
        exact ho i' j' ⟨req.slot, t, req.proposal⟩ hx hH
      | drawn hs hx => exact absurd hH hx.ne
      | @opened p hs hslot hp =>
        rcases hp.tag with hlt | ⟨hlead, heq⟩
        · exact absurd hH hlt.ne
        · -- the leader opened round 1 by a timer, on the value it was working on
          obtain ⟨id, l, draw, rfl, hre⟩ := hp.act
          have hhost := hp.hosted
          obtain ⟨nd, hnd, rfl⟩ : ∃ nd, w.nodes i = some nd ∧ nd.proposer = p := by
            simpa [view, arenaOf] using hhost
          generalize hact' : Act.timer i id l draw = act at hdid
          cases hdid with
          | record => simp at hact'
          | reply => simp at hact'
          | @fire k rng t nd' hk' hup hnd' hdue =>
            simp only [Act.timer.injEq] at hact'
            obtain ⟨rfl, rfl, rfl, -⟩ := hact'
            obtain rfl : nd = nd' := Option.some.inj (hnd.symm.trans hnd')
            have hv := hk hdue.1 t hk' hdue.2 hup nd hnd hlead hre
            exact ⟨t.node, _, hl t.node _ hhost (h.slot _ _ hnd) hlead, hv, heq⟩

/-- what was sent stays sent -/
theorem sent_stays (h : Sane n w) (ops : List ClusterOp) {e : Envelope (ConcreteMsg V)} (he : e ∈ sentOf w.trace) :
    e ∈ sentOf (w.run ops).trace := by
  induction ops generalizing w with
  | nil => exact he
  | cons op ops ih =>
    refine ih (sane_step h op) ?_
    have hle : (view w).Le (view (step w op)) := by
      rcases sim_step h op with hsame | ⟨act, -, hact⟩
      · rw [hsame]; exact Arena.Le.refl _
      · rw [hact]; exact Arena.le_step _ act
    exact hle.sends e he

/-- a leader that opens round 1 sends its working value under `H` -/
theorem opening_sends (h : Sane n w) {k : ℕ} (rng : NodeId → Draw) (hp : w.panicked = none) {t : PendingTimer}
    (ht : w.timers[k]? = some t) (hdue : t.fireAt ≤ w.now) (hup : w.crashed t.node = false) {nd : ReplicaNode V}
    (hnd : w.nodes t.node = some nd) (hlead : nd.proposer.leader = some t.node)
    (hre : nd.proposer.Reopens t.id nd.localStep) (hn : 0 < n) :
    ⟨t.node, 0, .request ⟨nd.proposer.slot, FIRST_ROUND_STEP, ⟨nd.proposer.proposal.value, H, t.node⟩⟩⟩ ∈
      sentOf (step w (.env (.fire k rng))).trace := by
  have hseat := h.arena.seat t.node nd.proposer (by simp [view, arenaOf, hnd])
  have hcall := Proposer.onTimer_reopens hre rng
  have hstep : step w (.env (.fire k rng)) = ({ w with timers := w.timers.eraseIdx k } : Concrete V).perform t.node
      (nd.withProposer (nd.proposer.onTimer t.id nd.localStep rng)) := by
    show w.env ReplicaNode.behaviour (.fire k rng) = _
    unfold World.env World.dispatchTimer
    simp [hp, ht, hdue, hup, hnd, ReplicaNode.behaviour, ReplicaNode.onTimer]
  rw [hstep, hcall]
  unfold ReplicaNode.withProposer World.perform
  dsimp only
  rw [sentOf_append, sentOf_sends]
  refine List.mem_append_right _ ((Proposer.mem_sendsOf_beginStep _ rng).2 ⟨0, ?_, ?_⟩)
  · show 0 < nd.proposer.totalReplicas
    rw [hseat.total]; exact hn
  · have hprep : (nd.proposer.movedTo FIRST_ROUND_STEP nd.proposer.proposal).prepare rng 0 =
        ⟨nd.proposer.proposal.value, H, nd.proposer.selfId⟩ := by
      have hl : (nd.proposer.movedTo FIRST_ROUND_STEP nd.proposer.proposal).isLeader = true := by
        unfold Proposer.isLeader Proposer.movedTo
        rw [hlead, hseat.selfId]
        exact beq_self_eq_true _
      unfold Proposer.prepare
      rw [if_pos ⟨(rfl : FIRST_ROUND_STEP % 4 = 0), rfl, hl⟩]
      rfl
    rw [hprep, hseat.selfId]
    rfl

/-- **One `H` proposal.** All requests a run ever sends with priority `H` carry the leader's initial value if and only
if the leader works on it whenever it begins round 1. -/
theorem one_h_proposal_iff (initialValues : ByReplica V) (leader : Option NodeId) (activationDelays : ByReplica ℕ)
    (ops : List ClusterOp) :
    OneH initialValues leader ((newWithDelays initialValues leader activationDelays).run ops) ↔
      Runs.Along step (KeepsInitial initialValues) (newWithDelays initialValues leader activationDelays) ops := by
  let I : Concrete V → Prop := fun w => Sane initialValues.keys.length w ∧ Arena.Led leader 0 (view w) ∧
    ∀ i nd, w.nodes i = some nd → i ∈ initialValues
  have hinit : I (newWithDelays initialValues leader activationDelays) := by
    refine ⟨sane_build _, (oneLeader_build fun i c hc => ?_).led, fun i nd hnd => ?_⟩
    · obtain ⟨x, -, rfl⟩ := Option.map_eq_some_iff.1 hc
      rfl
    · obtain ⟨c, hc, -⟩ : ∃ c, ((initialValues.lookup i).map fun v =>
          (⟨v, leader, some ((activationDelays.lookup i).getD 0)⟩ : ReplicaCfg V)) = some c ∧ _ :=
        Option.map_eq_some_iff.1 hnd
      obtain ⟨x, hx, -⟩ := Option.map_eq_some_iff.1 hc
      exact AList.lookup_isSome.1 (by rw [hx]; rfl)
  have hI : ∀ w op, I w → I (step w op) := by
    rintro w op ⟨hs, hl, hmem⟩
    refine ⟨sane_step hs op, ?_, fun i nd hnd => ?_⟩
    · exact view_keeps hs hl fun act hdid hal =>
        Arena.led_step hs.arena hl hal fun i p he => absurd he (hdid.not_spawn i p)
    · obtain ⟨nd', hnd', -⟩ := node_step hs op hnd
      exact hmem i nd' hnd'
  constructor
  · -- a step that opens round 1 on another value leaves its mark in the trace for good
    generalize newWithDelays initialValues leader activationDelays = w at hinit ⊢
    intro hone
    induction ops generalizing w with
    | nil => trivial
    | cons op ops ih =>
      refine ⟨?_, ih (step w op) (hI w op hinit) hone⟩
      unfold KeepsInitial
      split
      · rename_i k rng
        intro hp t ht hdue hup nd hnd hlead hre
        obtain ⟨hs, -, hmem⟩ := hinit
        have hn : 0 < initialValues.keys.length :=
          List.length_pos_of_mem (AList.mem_keys.1 (hmem t.node nd hnd))
        have hsent := opening_sends hs rng hp ht hdue hup hnd hlead hre hn
        have hlater := sent_stays (sane_step hs _) ops hsent
        obtain ⟨m, v, -, hv, heq⟩ := hone _ _ _ hlater rfl
        simp only [Proposal.mk.injEq] at heq
        rw [heq.2.2, hv, heq.1]
      · trivial
  · intro hkeep
    let J : Concrete V → Prop := fun w => I w ∧ OneH initialValues leader w
    have hJ : J ((newWithDelays initialValues leader activationDelays).run ops) :=
      Runs.run_invariant (I := J)
        (fun w op hw hk => ⟨hI w op hw.1, oneH_step hw.1.1 hw.1.2.1 hw.2 hk⟩)
        ⟨hinit, fun i j req he => absurd he (by simp [newWithDelays, build])⟩ hkeep
    exact hJ.2

/-- replicas 1 and 2 record their own proposals first, so the leader's quorum of step 4 shows it no `H`: it takes over
value 2, and the second push sends that value under `H` -/
def outrun : List ClusterOp :=
  runSlot 3 ++
  [wait 1, fire 0 1, fire 0 2, fire 0 9, wait 1, deliver 4 1, deliver 7 1, deliver 1 1, deliver 1 1, wait 1,
    deliver 7 1, deliver 7 1] ++
  runSlot 3 ++ [wait 1, fire 4 1]

/-- **Two pushes tag two values.** -/
theorem rekick_retags :
    ⟨0, 1, .request ⟨0, 4, ⟨0, H, 0⟩⟩⟩ ∈ sentOf ((newWithDelays idValues (some 0) ∅).run outrun).trace ∧
    ⟨0, 1, .request ⟨0, 4, ⟨2, H, 0⟩⟩⟩ ∈ sentOf ((newWithDelays idValues (some 0) ∅).run outrun).trace := by
  decide +kernel

end Concrete

end Queso
