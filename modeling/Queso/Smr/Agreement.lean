/-
One log, and one `H` proposal for each slot.

Results, over every run of a cluster, with a fixed leader, none, or tuned ones, whatever is submitted, delayed,
reordered, lost, duplicated, crashed or restarted:
- `one_h_proposal`: all `H` requests of a slot carry one proposal, of the leader that the policy assigns to the slot, on a
  command that a client submitted;
- `log_agreement`: along covered steps, any two replicas have applied the same commands as far as both have come;
- `steady_run`: without restarts every step is covered;
- `restart_splits`: a restarted replica's probe takes a step that is not covered, by counting replies to the requests
  of the proposer it replaced, and applies another command than a replica that had decided.
-/
import Queso.Smr.Invariant

namespace Queso

namespace Smr

variable {n : ℕ} {w : Smr} {op : SmrOp}

/-! ## One `H` proposal -/

/-- what a step adds to the submissions -/
theorem invoked_step {id : OpId} {c : Command} (h : .invoked id c ∈ (step w op).shared.history) :
    .invoked id c ∈ w.shared.history ∨ c.client ≠ CATCH_UP_CLIENT ∧ ∃ i, op = .submit i c := by
  rcases step_cases w op with hstill | ⟨i, nd, d, rfl, hsub⟩ | ⟨i, nd, nd', sh', fx, ev, hnd, hturn, htd⟩
  · rw [hstill.shared] at h; exact .inl h
  · rw [hsub.shared] at h
    rcases List.mem_append.1 h with h | h
    · exact .inl h
    · have heq := List.mem_singleton.1 h
      simp only [ClientEvent.invoked.injEq] at heq
      obtain ⟨-, rfl⟩ := heq
      exact .inr ⟨hsub.client, i, rfl⟩
  · rw [htd.shared] at h
    rcases Turn.history hturn with hsame | ⟨id', d, k, out, hsnoc⟩
    · rw [hsame] at h; exact .inl h
    · rw [hsnoc] at h
      rcases List.mem_append.1 h with h | h
      · exact .inl h
      · exact absurd (List.mem_singleton.1 h) (by simp)

/-- what was invoked was submitted by a client -/
theorem invoked_submitted (s : Setup) (ops : List SmrOp) {c : Command} (h : Invoked (s.cluster.run ops) c) :
    c.client ≠ CATCH_UP_CLIENT ∧ ∃ i, .submit i c ∈ ops := by
  let I : Smr → Prop := fun w => ∀ id c, .invoked id c ∈ w.shared.history →
    c.client ≠ CATCH_UP_CLIENT ∧ ∃ i, .submit i c ∈ ops
  have hinit : I s.cluster := by
    intro id c hc
    cases s <;> exact absurd hc (by simp [Setup.cluster, newWithLeader, newWithTuning, build])
  have hrun : I (s.cluster.run ops) := by
    refine Runs.run_invariant (I := I) (fun w op hi hop id c hc => ?_) hinit (Runs.along_mem step _ ops)
    rcases invoked_step hc with hold | ⟨hclient, i, rfl⟩
    · exact hi id c hold
    · exact ⟨hclient, i, hop⟩
  obtain ⟨id, hid⟩ := h
  exact hrun id c hid

/-- **One `H` proposal for each slot.** In every run, every request sent with priority `H` carries the proposal of the
leader that the policy assigns to its slot, on a command that a client submitted; and any two such requests of one slot
carry the same proposal. -/
theorem one_h_proposal (s : Setup) (ops : List SmrOp) :
    (∀ i j req, ⟨i, j, .request req⟩ ∈ sentOf (s.cluster.run ops).trace → req.proposal.priority = H →
      (s.cluster.run ops).shared.policy.leaderFor req.slot = .ok (some req.proposal.origin) ∧
      req.proposal.value.client ≠ CATCH_UP_CLIENT ∧ ∃ r, .submit r req.proposal.value ∈ ops) ∧
    (∀ i j req i' j' req', ⟨i, j, .request req⟩ ∈ sentOf (s.cluster.run ops).trace →
      ⟨i', j', .request req'⟩ ∈ sentOf (s.cluster.run ops).trace → req.slot = req'.slot →
      req.proposal.priority = H → req'.proposal.priority = H → req.proposal = req'.proposal) := by
  have h := sane_run s ops
  constructor
  · intro i j req he hH
    have hsent : ((view (s.cluster.run ops)).hist req.slot).sent req.reqStep req.proposal := ⟨i, j, he⟩
    have hleader := (h.sole.tagged _ _ _ hsent hH.ge).1
    refine ⟨?_, invoked_submitted s ops (h.tags.sent _ _ _ hsent hH.ge)⟩
    unfold leaderOf LeaderPolicy.leaderOf at hleader
    cases hl : (s.cluster.run ops).shared.policy.leaderFor req.slot with
    | error e => rw [hl] at hleader; exact absurd hleader (by simp)
    | ok leader => rw [hl] at hleader; rw [show leader = some req.proposal.origin from hleader]
  · intro i j req i' j' req' he he' hslot hH hH'
    have hsent : ((view (s.cluster.run ops)).hist req.slot).sent req.reqStep req.proposal := ⟨i, j, he⟩
    have hsent' : ((view (s.cluster.run ops)).hist req.slot).sent req'.reqStep req'.proposal :=
      ⟨i', j', by rw [hslot]; exact he'⟩
    exact h.sole.unique _ _ _ _ _ hsent hsent' hH.ge hH'.ge

/-! ## One log -/

/-- all that was applied meets the agreement argument of its slot -/
structure Spread (n : ℕ) (w : Smr) : Prop where
  spreads : Arena.Spreads n (view w)
  applied : ∀ i nd k c, w.nodes i = some nd → nd.durable.appliedLog[k]? = some c →
    Decides n ((view w).hist k) c

/-- a step whose acts are all covered keeps what is spread -/
theorem spread_of_covered (h : Sane n w) (hs : Spread n w)
    (hcov : ∀ a act, Arena.Inv n a → Ruled n w op a act → Arena.Covered a act) : Spread n (step w op) where
  spreads := view_keeps (Q := Arena.Spreads n) h hs.spreads fun a act hi hq hr =>
    Arena.spread_step hi hq hr.allowed (hcov a act hi hr)
  applied := log_keeps (D := fun a k c => Decides n (a.hist k) c) h (fun _ _ k _ hle hd => hd.mono (hle.hist k))
    hs.applied fun i _ _ _ p c hruled hp hd =>
      (Arena.spread_step h.arena hs.spreads hruled.allowed (hcov _ _ h.arena hruled)).decided i p c hp hd

theorem spread_step (h : Sane n w) (hs : Spread n w) (hcov : CoveredStep w op) : Spread n (step w op) :=
  spread_of_covered h hs fun _ _ _ hr => hr.covered hcov

theorem node_lt (s : Setup) (ops : List SmrOp) {i : NodeId} {nd : SmrNode}
    (h : (s.cluster.run ops).nodes i = some nd) : i < s.size := by
  let I : Smr → Prop := fun w => ∀ i nd, w.nodes i = some nd → i < s.size
  have hinit : I s.cluster := by
    intro i nd hnd
    cases s with
    | leader n leader =>
      unfold Setup.cluster newWithLeader build at hnd
      dsimp only at hnd
      split_ifs at hnd with hlt
      exact hlt
    | tuning n epochLen baseDelay =>
      unfold Setup.cluster newWithTuning build at hnd
      dsimp only at hnd
      split_ifs at hnd with hlt
      exact hlt
  have hrun : I (s.cluster.run ops) := by
    refine Runs.run_invariant (I := I) (fun w op hi _ i nd' hnd' => ?_) hinit (Runs.along_true step _ ops)
    obtain ⟨nd, hnd⟩ := node_back hnd'
    exact hi i nd hnd
  exact hrun i nd h

theorem view_cluster (s : Setup) : view s.cluster = Arena.init fun _ => none := by
  cases s with
  | leader n leader => exact view_build _ _
  | tuning n epochLen baseDelay => exact view_build _ _

theorem spread_cluster (s : Setup) : Spread s.size s.cluster where
  spreads := by
    rw [view_cluster]
    exact Arena.spread_init fun i p hp => absurd hp (by simp)
  applied := fun i nd k c hnd hc => by
    rw [cluster_node hnd] at hc
    exact absurd hc (by simp [SmrNode.new, Durable.default])

theorem appliedLog_eq {i : NodeId} {nd : SmrNode} (h : w.nodes i = some nd) :
    w.appliedLog i = nd.durable.appliedLog := by
  unfold appliedLog
  rw [h]

theorem nextSlot_eq {i : NodeId} {nd : SmrNode} (h : w.nodes i = some nd) : w.nextSlot i = nd.durable.nextSlot := by
  unfold nextSlot
  rw [h]

theorem Sane.length_eq (h : Sane n w) (i : NodeId) : (w.appliedLog i).length = w.nextSlot i := by
  cases hnd : w.nodes i with
  | none => unfold appliedLog nextSlot; rw [hnd]; rfl
  | some nd => rw [appliedLog_eq hnd, nextSlot_eq hnd]; exact h.length i nd hnd

/-- no step takes back what was applied -/
theorem applied_step (h : Sane n w) (op : SmrOp) (i : NodeId) :
    w.nextSlot i ≤ (step w op).nextSlot i ∧ w.appliedLog i <+: (step w op).appliedLog i := by
  cases hnd : w.nodes i with
  | none =>
    unfold nextSlot appliedLog
    rw [hnd]
    exact ⟨Nat.zero_le _, List.nil_prefix⟩
  | some nd =>
    obtain ⟨nd', hnd'⟩ := node_stays hnd op
    rw [nextSlot_eq hnd, nextSlot_eq hnd', appliedLog_eq hnd, appliedLog_eq hnd']
    rcases log_step h hnd hnd' with hstay | ⟨c, hgrow, -⟩
    · rw [hstay.next, hstay.log]
      exact ⟨le_rfl, List.prefix_rfl⟩
    · rw [hgrow.next, hgrow.log]
      exact ⟨Nat.le_succ _, List.prefix_append _ _⟩

/-- any two replicas agree as far as both have come -/
theorem Sane.logs_agree (h : Sane n w) (hs : Spread n w) {i j k : ℕ} (hi : k < w.nextSlot i) (hj : k < w.nextSlot j) :
    (w.appliedLog i)[k]? = (w.appliedLog j)[k]? := by
  have hread : ∀ i, k < w.nextSlot i → ∃ nd c, w.nodes i = some nd ∧ (w.appliedLog i)[k]? = some c := by
    intro i hi
    cases hnd : w.nodes i with
    | none =>
      unfold nextSlot at hi
      rw [hnd] at hi
      exact absurd hi (Nat.not_lt_zero _)
    | some nd =>
      rw [← h.length_eq] at hi
      exact ⟨nd, _, rfl, List.getElem?_eq_getElem hi⟩
  obtain ⟨ndi, c, hndi, hc⟩ := hread i hi
  obtain ⟨ndj, d, hndj, hd⟩ := hread j hj
  have hci := hs.applied i ndi k c hndi (by rw [← appliedLog_eq hndi]; exact hc)
  have hdj := hs.applied j ndj k d hndj (by rw [← appliedLog_eq hndj]; exact hd)
  rw [hc, hd, Arena.decisions_agree h.arena hs.spreads (h.sole.fastTop h.arena k) hci hdj]

theorem spread_run (s : Setup) {ops : List SmrOp} (hcov : Runs.Along step CoveredStep s.cluster ops) :
    Spread s.size (s.cluster.run ops) := by
  let I : Smr → Prop := fun w => Sane s.size w ∧ Spread s.size w
  have hI : I (s.cluster.run ops) :=
    Runs.run_invariant (I := I) (fun w op ⟨h, hs⟩ hc => ⟨sane_step h op, spread_step h hs hc⟩)
      ⟨sane_cluster s, spread_cluster s⟩ hcov
  exact hI.2

/-- **Log agreement.** In every run whose steps are covered, with crashes and restarts, any two replicas have applied the
same command at every slot that both are past. -/
theorem log_agreement (s : Setup) (ops : List SmrOp) (hcov : Runs.Along step CoveredStep s.cluster ops) (i j k : ℕ)
    (hi : k < (s.cluster.run ops).nextSlot i) (hj : k < (s.cluster.run ops).nextSlot j) :
    ((s.cluster.run ops).appliedLog i)[k]? = ((s.cluster.run ops).appliedLog j)[k]? := by
  exact (sane_run s ops).logs_agree (spread_run s hcov) hi hj

/-! ## Runs without a restart -/

/-- the replica that the environment restarts -/
def restarted : SmrOp → Option NodeId
  | .env (.restart i _) => some i
  | _ => none

/-- no replica is catching up -/
def Learned (w : Smr) : Prop := ∀ i nd, w.nodes i = some nd → nd.isCatchingUp = false

theorem isCatchingUp_iff {nd : SmrNode} {a : CurrentAttempt} (ha : nd.currentAttempt = some a) :
    nd.isCatchingUp = true ↔ a.origin = .catchUp := by
  unfold SmrNode.isCatchingUp
  rw [ha]
  exact decide_eq_true_iff

/-- a replica that goes on with the same attempt goes on catching up, or not -/
theorem Driven.isCatchingUp {nd nd' : SmrNode} {a : CurrentAttempt} {p : Proposer Command}
    (ha : nd.currentAttempt = some a) (h : nd.Driven a p nd') : nd'.isCatchingUp = nd.isCatchingUp := by
  obtain ⟨b, hb⟩ := h.drives
  rw [Bool.eq_iff_iff, isCatchingUp_iff hb, isCatchingUp_iff ha]

/-- only a restart makes a replica catch up -/
theorem Turn.learned {i : NodeId} {nd nd' : SmrNode} {sh' : Shared} {fx : List (Effect SmrMsg)}
    {ev : List (TraceEvent SmrMsg)} (ht : Turn w i nd op nd' sh' fx ev) (hop : restarted op ≠ some i)
    (h : nd.isCatchingUp = false) : nd'.isCatchingUp = false := by
  cases ht with
  | request _ hcall =>
    simp only [SmrNode.onRequest, Except.ok.injEq, Prod.mk.injEq] at hcall
    rw [← hcall.1]
    exact h
  | reply _ _ hcall =>
    rcases SmrNode.onReply_moves hcall with ⟨rfl, -, -⟩ | ⟨attempt, p, fx₁, nd₁, ha, -, -, hdrv,
      ⟨-, rfl, -, -⟩ | ⟨decided, ended, nd₂, sh₂, fx₂, -, hend, -, -, -, hlearn⟩⟩
    · exact h
    · rw [Driven.isCatchingUp ha hdrv]; exact h
    · have hcatch := isCatchingUp_iff hend
      rw [Driven.isCatchingUp ha hdrv, h] at hcatch
      rw [← Bool.not_eq_true, hlearn]
      exact fun hc => absurd (hcatch.2 hc.1) (by decide)
  | timer hcall =>
    rcases SmrNode.onTimer_moves hcall with ⟨rfl, -, -⟩ | ⟨-, -, hres⟩ | ⟨hcatch, -⟩ | ⟨_, _, ha, -, -, hdrv, -⟩
    · exact h
    · exact hres
    · rw [h] at hcatch; exact absurd hcatch (by decide)
    · rw [Driven.isCatchingUp ha hdrv]; exact h
  | restart => exact absurd rfl hop

theorem learned_step (hop : restarted op = none) (h : Learned w) : Learned (step w op) := by
  intro i nd' hnd'
  rcases node_cases hnd' with hsame | ⟨nd, o, hnd, -, rfl⟩ | ⟨nd, sh', fx, ev, hnd, hturn, -⟩
  · exact h i nd' hsame
  · exact h i nd hnd
  · exact Turn.learned hturn (by rw [hop]; simp) (h i nd hnd)

theorem Learned.straight (h : Learned w) (hop : restarted op = none) : Straight w op :=
  ⟨fun i rng heq => absurd hop (by rw [heq]; simp [restarted]), h⟩

/-- a cluster where every replica starts one attempt for a slot, once -/
structure Steady (n : ℕ) (w : Smr) : Prop where
  sane : Sane n w
  learned : Learned w
  solo : Arena.Solo (view w)
  spread : Spread n w

theorem steady_step (h : Steady n w) (hop : restarted op = none) : Steady n (step w op) := by
  have honce : ∀ {a act}, Ruled n w op a act → Arena.Once a act := fun hr => hr.once (h.learned.straight hop)
  have hview : Arena.Solo (view (step w op)) ∧ Arena.Spreads n (view (step w op)) :=
    view_keeps (Q := fun a => Arena.Solo a ∧ Arena.Spreads n a) h.sane ⟨h.solo, h.spread.spreads⟩
      fun a act hi hq hr => ⟨Arena.solo_step hi hq.1 hr.allowed (honce hr),
        Arena.spread_step hi hq.2 hr.allowed (hq.1.covered hi hr.allowed)⟩
  exact
    { sane := sane_step h.sane op
      learned := learned_step hop h.learned
      solo := hview.1
      spread :=
        { spreads := hview.2
          applied := log_keeps (D := fun a k c => Decides n (a.hist k) c) h.sane
            (fun _ _ k _ hle hd => hd.mono (hle.hist k)) h.spread.applied fun i _ _ _ p c hruled hp hd =>
              (Arena.spread_step h.sane.arena h.spread.spreads hruled.allowed
                (h.solo.covered h.sane.arena hruled.allowed)).decided i p c hp hd } }

theorem steady_cluster (s : Setup) : Steady s.size s.cluster where
  sane := sane_cluster s
  learned := fun i nd hnd => by rw [cluster_node hnd]; rfl
  solo := by rw [view_cluster]; exact Arena.solo_init _
  spread := spread_cluster s

theorem steady_run (s : Setup) {ops : List SmrOp} (hops : ∀ op ∈ ops, restarted op = none) :
    Steady s.size (s.cluster.run ops) :=
  Runs.run_invariant (I := Steady s.size) (fun _ op h hop => steady_step h (hops op hop)) (steady_cluster s)
    (Runs.along_mem step _ ops)

/-! ## Runs with a restart -/

instance (w : Smr) (op : SmrOp) : Decidable (CoveredStep w op) := by
  unfold CoveredStep
  have : ∀ (e : Envelope SmrMsg) (p : Proposer Command), Decidable (match e.payload with
      | .request _ => True
      | .response resp => p.Covers (servedOf w.trace p.slot) e.src resp) := by
    intro e p
    split <;> infer_instance
  split <;> infer_instance

def wait (d : ℕ) : SmrOp := .env (.tick d)

def fire (k p : ℕ) : SmrOp := .env (.fire k (drawing p))

def deliver (k p : ℕ) : SmrOp := .env (.deliver k (drawing p))

def crash (i : NodeId) : SmrOp := .env (.crash i)

def restart (i : NodeId) (p : ℕ) : SmrOp := .env (.restart i (drawing p))

/-- leader 0 decides its client's operation at once; replica 1 crashes, restarts, and learns it by its probe -/
def learns : List SmrOp :=
  [.submit 0 (.put 0 1 0 10), wait 1, fire 0 1, deliver 0 1, deliver 0 1, deliver 1 1, deliver 1 1,
    crash 1, restart 1 1, deliver 1 1, deliver 1 1, deliver 2 1, deliver 2 1]

theorem log_agreement_learns :
    ((Setup.leader 3 (some 0)).cluster.run learns).nextSlot 0 = 1 ∧
    ((Setup.leader 3 (some 0)).cluster.run learns).nextSlot 1 = 1 ∧
    (((Setup.leader 3 (some 0)).cluster.run learns).appliedLog 0)[0]? =
      (((Setup.leader 3 (some 0)).cluster.run learns).appliedLog 1)[0]? := by
  have h0 : ((Setup.leader 3 (some 0)).cluster.run learns).nextSlot 0 = 1 := by decide +kernel
  have h1 : ((Setup.leader 3 (some 0)).cluster.run learns).nextSlot 1 = 1 := by decide +kernel
  have hcov : Runs.Along step CoveredStep (Setup.leader 3 (some 0)).cluster learns := by decide +kernel
  exact ⟨h0, h1, log_agreement (.leader 3 (some 0)) learns hcov 0 1 0 (by omega) (by omega)⟩

/-- replicas 0 and 1 reach step 5 with replica 1's operation and replica 2 with its own; replica 1 decides, while two
replies to replica 0's requests of step 5 stay in flight -/
def beforeCrash : List SmrOp :=
  [.submit 0 (.put 0 1 0 10), .submit 1 (.put 1 1 0 11), .submit 2 (.put 2 1 0 12), wait 1, fire 0 1, fire 0 2, fire 0 9,
    deliver 0 1, deliver 3 1, deliver 6 1, wait 20, fire 0 1, deliver 0 1, deliver 1 1, deliver 8 1, deliver 2 1,
    deliver 3 1, deliver 7 1, deliver 3 1, deliver 6 1, deliver 3 1, deliver 6 1, deliver 14 1, deliver 6 1, deliver 6 1,
    deliver 7 1, deliver 7 1, deliver 13 1, deliver 13 1, deliver 13 1, deliver 13 1, deliver 14 1, deliver 14 1]

/-- replica 0 restarts; its probe catches up to step 5 with replica 2's operation, leaves it on the two old replies, and
decides -/
def afterRestart : List SmrOp :=
  [crash 0, restart 0 1, deliver 0 1, deliver 4 1, deliver 15 1, deliver 9 1, deliver 9 1, deliver 18 1, deliver 16 1,
    deliver 17 1, deliver 17 1]

/-- **A restart splits the log.** -/
theorem restart_splits :
    ((newWithLeader 3 none).run (beforeCrash ++ afterRestart)).appliedLog 0 = [.put 2 1 0 12] ∧
    ((newWithLeader 3 none).run (beforeCrash ++ afterRestart)).appliedLog 1 = [.put 1 1 0 11] := by
  decide +kernel

end Smr

end Queso
