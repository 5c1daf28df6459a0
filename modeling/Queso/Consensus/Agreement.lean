/-
Agreement, validity and integrity of the single-slot cluster.

Results, over every run of a cluster of replicas, whatever is delayed, reordered, lost, duplicated or crashed:
- `decision_frozen`: a decided proposer keeps its decision, its step and what it reports of the fast path;
- `covered_agreement`: with one leader or none, along covered steps, all decisions are on one value;
- `single_start_safe`: if every proposer is started at most once, all decisions are on one value, which is the initial
  value of a proposer that was kicked, and no decision ever changes;
- `many_leaders_safe`: if proposers, each started at most once, disagree about the leader, any two fast decisions are
  still on one value, and one taken on the greatest `H` proposal of step 4 binds every decision.
-/
import Queso.Consensus.Coverage
import Queso.Consensus.Refine

namespace Queso

open Register Quorum

variable {V : Type} [LinearOrder V]

namespace Concrete

variable {n : ℕ} {w : Concrete V}

/-! ## Conditions on the steps of a run -/

omit [LinearOrder V] in
/-- a kickoff fires only for a proposer that was never started -/
def StartsOnce (w : Concrete V) : ClusterOp → Prop
  | .env (.fire k _) => ∀ t ∈ w.timers[k]?, t.id = .kickoff → ∀ nd ∈ w.nodes t.node, nd.proposer.step = 0
  | _ => True

/-- a reply that completes phase 1 or 2 does so on recorders that accepted, at that step, proposals no smaller than the
proposer's own -/
def CoveredStep (w : Concrete V) : ClusterOp → Prop
  | .env (.deliver k _) => ∀ e ∈ w.net[k]?, w.crashed e.dst = false → ∀ nd ∈ w.nodes e.dst,
      match e.payload with
      | .request _ => True
      | .response resp => nd.proposer.Covers (servedOf w.trace 0) e.src resp
  | _ => True

omit [LinearOrder V] in
instance (w : Concrete V) (op : ClusterOp) : Decidable (StartsOnce w op) := by
  unfold StartsOnce
  split <;> infer_instance

instance (w : Concrete V) (op : ClusterOp) : Decidable (CoveredStep w op) := by
  unfold CoveredStep
  have : ∀ (e : Envelope (ConcreteMsg V)) (nd : ReplicaNode V), Decidable (match e.payload with
      | .request _ => True
      | .response resp => nd.proposer.Covers (servedOf w.trace 0) e.src resp) := by
    intro e nd
    split <;> infer_instance
  split <;> infer_instance

theorem Sane.covered (h : Sane n w) {op : ClusterOp} (hcov : CoveredStep w op) {act : Act V} (hdid : Did w op act) :
    Arena.Covered (view w) act := by
  cases hdid with
  | record => trivial
  | fire => trivial
  | @reply k rng src dst resp nd hk hup hnd =>
    intro p hp
    obtain rfl : nd.proposer = p := by simpa [view, arenaOf, hnd] using hp
    have hcalls : (view w).calls nd.proposer.slot = servedOf w.trace 0 := by rw [h.slot dst nd hnd]; rfl
    rw [hcalls]
    exact hcov _ hk hup nd hnd

omit [LinearOrder V] in
theorem StartsOnce.once {op : ClusterOp} (hs : StartsOnce w op) {act : Act V} (hdid : Did w op act) :
    Arena.Once (view w) act := by
  cases hdid with
  | record => trivial
  | reply => trivial
  | @fire k rng t nd hk hup hnd hdue =>
    cases hid : t.id with
    | kickoff =>
      intro p hp
      obtain rfl : nd.proposer = p := by simpa [view, arenaOf, hnd] using hp
      exact hs t hk hid nd hnd
    | hedge => trivial
    | catchUpWatchdog => trivial
    | retry s => trivial

/-- what every act of the cluster keeps, a step keeps -/
theorem view_keeps {Q : Arena V → Prop} (h : Sane n w) {op : ClusterOp} (hQ : Q (view w))
    (hact : ∀ act, Did w op act → Arena.Allowed n (view w) act → Q ((view w).step act)) : Q (view (step w op)) := by
  rcases sim_step h op with hsame | ⟨act, hdid, heq⟩
  · rwa [hsame]
  · rw [heq]; exact hact act hdid (h.allowed hdid)

theorem spreads_step (h : Sane n w) (hs : Arena.Spreads n (view w)) {op : ClusterOp} (hcov : CoveredStep w op) :
    Arena.Spreads n (view (step w op)) :=
  view_keeps h hs fun _ hdid hal => Arena.spread_step h.arena hs hal (h.covered hcov hdid)

/-- alone on its slot, a proposer is always covered -/
theorem spreads_step_solo (h : Sane n w) (ho : Arena.Solo (view w)) (hs : Arena.Spreads n (view w)) (op : ClusterOp) :
    Arena.Spreads n (view (step w op)) :=
  view_keeps h hs fun _ _ hal => Arena.spread_step h.arena hs hal (ho.covered h.arena hal)

theorem solo_step (h : Sane n w) (ho : Arena.Solo (view w)) {op : ClusterOp} (honce : StartsOnce w op) :
    Arena.Solo (view (step w op)) :=
  view_keeps h ho fun _ hdid hal => Arena.solo_step h.arena ho hal (honce.once hdid)

theorem capped_step (h : Sane n w) (hc : Arena.Capped (view w)) (op : ClusterOp) : Arena.Capped (view (step w op)) :=
  view_keeps h hc fun _ _ hal => Arena.cap_step h.arena hc hal

/-! ## One leader -/

/-- what one leader, or none, makes of the `H` proposals -/
structure OneLeader (n : ℕ) (leader : Option NodeId) (v₀ : Option V) (a : Arena V) : Prop where
  capped : Arena.Capped a
  led : Arena.Led leader 0 a
  tagged : Arena.Tagged leader 0 a
  first : Arena.Plain n (a.hist 0) ∨ Arena.FirstValue leader v₀ 0 a

theorem oneLeader_step {leader : Option NodeId} {v₀ : Option V} (h : Sane n w)
    (hl : OneLeader n leader v₀ (view w)) (op : ClusterOp) : OneLeader n leader v₀ (view (step w op)) := by
  refine view_keeps h hl fun act hdid hal => ?_
  have hsp : ∀ i p, act ≠ .spawn i p := hdid.not_spawn
  exact
    { capped := Arena.cap_step h.arena hl.capped hal
      led := Arena.led_step h.arena hl.led hal fun i p he => absurd he (hsp i p)
      tagged := Arena.tag_step h.arena hl.led hl.tagged hal
      first := Arena.first_step h.arena hl.led hl.first hal fun i p he => absurd he (hsp i p) }

/-- the initial value of the leader's replica, if there is one -/
def leaderValue (cfg : NodeId → Option (ReplicaCfg V)) (leader : Option NodeId) : Option V :=
  (leader.bind cfg).map ReplicaCfg.initial

omit [LinearOrder V] in
theorem oneLeader_build {cfg : NodeId → Option (ReplicaCfg V)} {leader : Option NodeId}
    (hleader : ∀ i c, cfg i = some c → c.leader = leader) :
    OneLeader n leader (leaderValue cfg leader) (view (build n cfg)) where
  capped := fun k s x ⟨i, j, he⟩ => absurd he (by simp [view, arenaOf, build])
  led := fun i p hp _ hpl => by
    obtain ⟨-, -, c, hc, hlead, -⟩ := build_fresh hp
    rw [← hleader i c hc, ← hlead, hpl]
  tagged := fun s x ⟨i, j, he⟩ => absurd he (by simp [view, arenaOf, build])
  first := .inr
    { sent := fun s x ⟨i, j, he⟩ => absurd he (by simp [view, arenaOf, build])
      hosted := fun i p hp _ hpl => by
        obtain ⟨-, -, c, hc, -, hv⟩ := build_fresh hp
        rw [hv, leaderValue, hpl]
        simp [hc] }

theorem spreads_build (cfg : NodeId → Option (ReplicaCfg V)) : Arena.Spreads n (view (build n cfg)) :=
  Arena.spread_init fun _ _ hp => (build_fresh hp).1

/-! ## Decisions -/

omit [LinearOrder V] in
theorem decided_iff {w : Concrete V} {i : NodeId} {v : V} :
    w.decided i = some v ↔ ∃ nd, w.nodes i = some nd ∧ nd.proposer.decided = some v := by
  unfold decided
  exact Option.bind_eq_some_iff

theorem Sane.decides (h : Sane n w) (hs : Arena.Spreads n (view w)) {i : NodeId} {v : V} (hv : w.decided i = some v) :
    Decides n ((view w).hist 0) v := by
  obtain ⟨nd, hnd, hd⟩ := decided_iff.1 hv
  have hdec := hs.decided i nd.proposer v (by simp [view, arenaOf, hnd]) hd
  rwa [h.slot i nd hnd] at hdec

theorem node_stays {w : Concrete V} {i : NodeId} {nd : ReplicaNode V} (hnd : w.nodes i = some nd) (op : ClusterOp) :
    ∃ nd', (step w op).nodes i = some nd' := by
  cases op with
  | env op => exact World.env_node_stays _ hnd op
  | kick j =>
    refine ⟨nd, ?_⟩
    unfold step
    dsimp only
    split_ifs <;> exact hnd

/-- **Integrity.** A decided proposer keeps its decision, its step and what it reports of the fast path. -/
theorem decision_frozen_step (h : Sane n w) (op : ClusterOp) {i : NodeId} {nd : ReplicaNode V} {v : V}
    (hnd : w.nodes i = some nd) (hd : nd.proposer.decided = some v) :
    ∃ nd', (step w op).nodes i = some nd' ∧ nd'.proposer.decided = some v ∧ nd'.proposer.step = nd.proposer.step := by
  have hprops : ∀ {w : Concrete V} {nd : ReplicaNode V}, w.nodes i = some nd →
      (view w).props i = some nd.proposer := fun h => by simp [view, arenaOf, h]
  have hkeep : ∀ p', (view (step w op)).props i = some p' → p'.decided = some v ∧ p'.step = nd.proposer.step := by
    intro p' hp'
    rcases sim_step h op with hsame | ⟨act, hdid, heq⟩
    · rw [hsame, hprops hnd] at hp'
      obtain rfl := Option.some.inj hp'
      exact ⟨hd, rfl⟩
    · rw [heq] at hp'
      exact Arena.decided_frozen (hprops hnd) hd hp' fun q => hdid.not_spawn i q
  obtain ⟨nd', hnd'⟩ := node_stays hnd op
  exact ⟨nd', hnd', hkeep _ (hprops hnd')⟩

/-- a decision stays for the rest of the run -/
theorem decision_frozen (h : Sane n w) (ops : List ClusterOp) {i : NodeId} {nd : ReplicaNode V} {v : V}
    (hnd : w.nodes i = some nd) (hd : nd.proposer.decided = some v) :
    ∃ nd', (w.run ops).nodes i = some nd' ∧ nd'.proposer.decided = some v ∧
      nd'.proposer.step = nd.proposer.step := by
  induction ops generalizing w nd with
  | nil => exact ⟨nd, hnd, hd, rfl⟩
  | cons op ops ih =>
    obtain ⟨nd₁, hnd₁, hd₁, hs₁⟩ := decision_frozen_step h op hnd hd
    obtain ⟨nd₂, hnd₂, hd₂, hs₂⟩ := ih (sane_step h op) hnd₁ hd₁
    exact ⟨nd₂, hnd₂, hd₂, hs₂.trans hs₁⟩

theorem decided_stays {cfg : NodeId → Option (ReplicaCfg V)} {l m : List ClusterOp} {i : NodeId} {v : V}
    (hv : ((build n cfg).run l).decided i = some v) : ((build n cfg).run (l ++ m)).decided i = some v := by
  obtain ⟨nd, hnd, hd⟩ := decided_iff.1 hv
  have hsane : Sane n ((build n cfg).run l) := sane_run cfg l
  obtain ⟨nd', hnd', hd', -⟩ := decision_frozen hsane m hnd hd
  refine decided_iff.2 ⟨nd', ?_, hd'⟩
  rwa [run, Runs.run_append]

/-- **Agreement along covered steps**, with one leader or none, however often proposers are started -/
theorem covered_agreement {cfg : NodeId → Option (ReplicaCfg V)} {leader : Option NodeId}
    (hleader : ∀ i c, cfg i = some c → c.leader = leader) {ops : List ClusterOp}
    (hcov : Runs.Along step CoveredStep (build n cfg) ops) {i j : NodeId} {v v' : V}
    (hv : ((build n cfg).run ops).decided i = some v) (hv' : ((build n cfg).run ops).decided j = some v') :
    v = v' := by
  let I : Concrete V → Prop := fun w =>
    Sane n w ∧ Arena.Spreads n (view w) ∧ OneLeader n leader (leaderValue cfg leader) (view w)
  obtain ⟨hsane, hspread, hone⟩ : I ((build n cfg).run ops) :=
    Runs.run_invariant (I := I)
      (fun w op ⟨hs, hsp, ho⟩ hc => ⟨sane_step hs op, spreads_step hs hsp hc, oneLeader_step hs ho op⟩)
      ⟨sane_build cfg, spreads_build cfg, oneLeader_build hleader⟩ hcov
  have htop := Arena.fastTop hsane.arena hone.capped hone.tagged hone.first
  exact Arena.decisions_agree hsane.arena hspread htop (hsane.decides hspread hv) (hsane.decides hspread hv')

/-- along a run that starts each proposer at most once, every step is covered -/
theorem solo_run {cfg : NodeId → Option (ReplicaCfg V)} {ops : List ClusterOp}
    (honce : Runs.Along step StartsOnce (build n cfg) ops) :
    Sane n ((build n cfg).run ops) ∧ Arena.Spreads n (view ((build n cfg).run ops)) := by
  let I : Concrete V → Prop := fun w => Sane n w ∧ Arena.Solo (view w) ∧ Arena.Spreads n (view w)
  obtain ⟨hsane, -, hspread⟩ : I ((build n cfg).run ops) :=
    Runs.run_invariant (I := I)
      (fun w op ⟨hs, ho, hsp⟩ hc => ⟨sane_step hs op, solo_step hs ho hc, spreads_step_solo hs ho hsp op⟩)
      ⟨sane_build cfg, Arena.solo_init _, spreads_build cfg⟩ honce
  exact ⟨hsane, hspread⟩

theorem capped_run (cfg : NodeId → Option (ReplicaCfg V)) (ops : List ClusterOp) :
    Arena.Capped (view ((build n cfg).run ops)) := by
  let I : Concrete V → Prop := fun w => Sane n w ∧ Arena.Capped (view w)
  have hI : I ((build n cfg).run ops) :=
    Runs.run_invariant (I := I) (fun w op ⟨hs, hc⟩ _ => ⟨sane_step hs op, capped_step hs hc op⟩)
      ⟨sane_build cfg, fun k s x ⟨i, j, he⟩ => absurd he (by simp [view, arenaOf, build])⟩ (Runs.along_true step _ ops)
  exact hI.2

theorem oneLeader_run {cfg : NodeId → Option (ReplicaCfg V)} {leader : Option NodeId}
    (hleader : ∀ i c, cfg i = some c → c.leader = leader) (ops : List ClusterOp) :
    OneLeader n leader (leaderValue cfg leader) (view ((build n cfg).run ops)) := by
  let I : Concrete V → Prop := fun w => Sane n w ∧ OneLeader n leader (leaderValue cfg leader) (view w)
  have hI : I ((build n cfg).run ops) :=
    Runs.run_invariant (I := I) (fun w op ⟨hs, ho⟩ _ => ⟨sane_step hs op, oneLeader_step hs ho op⟩)
      ⟨sane_build cfg, oneLeader_build hleader⟩ (Runs.along_true step _ ops)
  exact hI.2

/-! ## Validity -/

/-- the initial value of a replica that the driver kicked during `ops` -/
def Offered (cfg : NodeId → Option (ReplicaCfg V)) (ops : List ClusterOp) (v : V) : Prop :=
  ∃ i c, cfg i = some c ∧ c.initial = v ∧ .kick i ∈ ops

/-- a kickoff is pending only where the driver kicked, and a proposer never started has its initial value -/
structure Offers (cfg : NodeId → Option (ReplicaCfg V)) (ops : List ClusterOp) (w : Concrete V) : Prop where
  flows : Arena.Flows (fun _ v => Offered cfg ops v) (view w)
  kicked : ∀ t ∈ w.timers, t.id = .kickoff → .kick t.node ∈ ops
  untouched : ∀ i nd, w.nodes i = some nd → nd.proposer.step = 0 →
    ∃ c, cfg i = some c ∧ nd.proposer.proposal.value = c.initial

theorem kicked_step {ops : List ClusterOp} (hk : ∀ t ∈ w.timers, t.id = .kickoff → .kick t.node ∈ ops)
    {op : ClusterOp} (hop : op ∈ ops) : ∀ t ∈ (step w op).timers, t.id = .kickoff → .kick t.node ∈ ops := by
  intro t ht hid
  cases op with
  | kick i =>
    unfold step at ht
    dsimp only at ht
    split_ifs at ht with hc
    · exact hk t ht hid
    · rcases List.mem_append.1 ht with ht | ht
      · exact hk t ht hid
      · rw [List.mem_singleton.1 ht]; exact hop
  | env op =>
    have ht : t ∈ (w.env ReplicaNode.behaviour op).timers := ht
    rcases World.env_cases ReplicaNode.behaviour w op with hcalm | ⟨w₀, e, nd, rng, hcalm, -, -, -, hw⟩ |
      ⟨w₀, t', nd, rng, hcalm, -, -, -, -, hw⟩ | ⟨w₀, i, nd, rng, hcalm, -, rfl, hw⟩
    · exact hk t (hcalm.timers t ht) hid
    all_goals
      rw [hw] at ht
      rcases World.perform_timers ht with ht | ⟨-, nd₁, g, fx, d, ho, hfx⟩
      · exact hk t (hcalm.timers t ht) hid
      rw [hid] at hfx
    · obtain ⟨s, hs⟩ := ReplicaNode.onMessage_armed ho hfx
      exact absurd hs (by simp)
    · obtain ⟨p', hc, -⟩ := ReplicaNode.withProposer_ok ho
      rcases (Proposer.onTimer_moves hc).armed hfx with ⟨s, hs⟩ | ⟨hs, -⟩
      · exact absurd hs (by simp)
      · exact absurd hs (by simp)
    · simp only [ReplicaNode.behaviour, Except.ok.injEq, Prod.mk.injEq] at ho
      obtain ⟨-, -, rfl⟩ := ho
      simp at hfx

theorem offers_step {cfg : NodeId → Option (ReplicaCfg V)} {ops : List ClusterOp} (h : Sane n w)
    (ho : Offers cfg ops w) {op : ClusterOp} (hop : op ∈ ops) : Offers cfg ops (step w op) where
  flows := by
    refine view_keeps h ho.flows fun act hdid hal => Arena.flow_step h.arena ho.flows hal ?_
    rintro i l draw p rfl hp h0
    obtain ⟨nd, hnd, rfl⟩ : ∃ nd, w.nodes i = some nd ∧ nd.proposer = p := by simpa [view, arenaOf] using hp
    obtain ⟨c, hc, hv⟩ := ho.untouched i nd hnd h0
    generalize hact : Act.timer i .kickoff l draw = act at hdid
    cases hdid with
    | record => simp at hact
    | reply => simp at hact
    | @fire k rng t nd' hk hup hnd' hdue =>
      simp only [Act.timer.injEq] at hact
      obtain ⟨rfl, hid, -, -⟩ := hact
      exact ⟨t.node, c, hc, hv.symm, ho.kicked t (List.mem_of_getElem? hk) hid.symm⟩
  kicked := kicked_step ho.kicked hop
  untouched := fun i nd' hnd' h0 => by
    obtain ⟨nd, act, hnd, hkept, heq | h5⟩ := node_back h op hnd'
    · rw [heq]
      exact ho.untouched i nd hnd (hkept.back h0)
    · omega

omit [LinearOrder V] in
theorem offers_build (cfg : NodeId → Option (ReplicaCfg V)) (ops : List ClusterOp) :
    Offers cfg ops (build n cfg) where
  flows :=
    { sent := fun k s x ⟨i, j, he⟩ => absurd he (by simp [view, arenaOf, build])
      hosted := fun i p hp hne => absurd (build_fresh hp).1.step hne }
  kicked := fun t ht => absurd ht (by simp [build])
  untouched := fun i nd hnd _ => by
    have hp : (view (build n cfg)).props i = some nd.proposer := by simp [view, arenaOf, hnd]
    obtain ⟨-, -, c, hc, -, hv⟩ := build_fresh hp
    exact ⟨c, hc, hv⟩

/-- **Validity.** What is decided was offered: it is the initial value of a replica that was kicked. -/
theorem decided_offered {cfg : NodeId → Option (ReplicaCfg V)} {ops : List ClusterOp} {i : NodeId} {v : V}
    (hv : ((build n cfg).run ops).decided i = some v) : Offered cfg ops v := by
  let I : Concrete V → Prop := fun w => Sane n w ∧ Offers cfg ops w
  obtain ⟨hsane, hoff⟩ : I ((build n cfg).run ops) :=
    Runs.run_invariant (I := I) (fun w op ⟨hs, ho⟩ hop => ⟨sane_step hs op, offers_step hs ho hop⟩)
      ⟨sane_build cfg, offers_build cfg ops⟩ (Runs.along_mem step _ ops)
  obtain ⟨nd, hnd, hd⟩ := decided_iff.1 hv
  have hseat := hsane.arena.seat i nd.proposer (by simp [view, arenaOf, hnd])
  exact hoff.flows.decided hsane.arena (hseat.decided v hd)

/-- **Agreement, validity and integrity.** In every run that starts each proposer at most once: decisions agree, they
are initial values of kicked replicas, and they never change. -/
theorem single_start_safe (n : ℕ) (cfg : NodeId → Option (ReplicaCfg V)) (leader : Option NodeId)
    (hleader : ∀ i c, cfg i = some c → c.leader = leader) (ops : List ClusterOp)
    (honce : Runs.Along step StartsOnce (build n cfg) ops) :
    (∀ i j v v', ((build n cfg).run ops).decided i = some v → ((build n cfg).run ops).decided j = some v' → v = v') ∧
    (∀ i v, ((build n cfg).run ops).decided i = some v → ∃ j c, cfg j = some c ∧ c.initial = v ∧ .kick j ∈ ops) ∧
    (∀ l m i v, ops = l ++ m → ((build n cfg).run l).decided i = some v →
      ((build n cfg).run ops).decided i = some v) := by
  obtain ⟨hsane, hspread⟩ := solo_run honce
  have hone : OneLeader n leader (leaderValue cfg leader) (view ((build n cfg).run ops)) := oneLeader_run hleader ops
  have htop := Arena.fastTop hsane.arena hone.capped hone.tagged hone.first
  refine ⟨fun i j v v' hv hv' => ?_, fun i v hv => decided_offered hv, fun l m i v hlm hv => ?_⟩
  · exact Arena.decisions_agree hsane.arena hspread htop (hsane.decides hspread hv) (hsane.decides hspread hv')
  · rw [hlm]
    exact decided_stays hv

/-- three replicas, each with its id as initial value -/
def three (leader : NodeId → Option NodeId) : NodeId → Option (ReplicaCfg ℕ) := fun i =>
  if i < 3 then some ⟨i, leader i, none⟩ else none

/-- replicas 0 and 2 compete: replica 2 records its proposal at itself first, and then all messages arrive in the order
they were sent in -/
def competing : List ClusterOp :=
  [.kick 0, .kick 2, .env (.tick 1), .env (.fire 0 (drawing 1)), .env (.fire 0 (drawing 9)),
    .env (.deliver 5 (drawing 1))] ++ List.replicate 22 (.env (.deliver 0 (drawing 1)))

/-- the leader decides on the fast path; the other gives its own value up and decides the leader's in step 6 -/
theorem single_start_safe_three :
    ((build 3 (three fun _ => some 0)).run competing).decided 0 = some 0 ∧
    ((build 3 (three fun _ => some 0)).run competing).decided 2 = some 0 ∧
    (∀ i j v v', ((build 3 (three fun _ => some 0)).run competing).decided i = some v →
      ((build 3 (three fun _ => some 0)).run competing).decided j = some v' → v = v') ∧
    (∀ i v, ((build 3 (three fun _ => some 0)).run competing).decided i = some v →
      ∃ j c, three (fun _ => some 0) j = some c ∧ c.initial = v ∧ .kick j ∈ competing) := by
  have hleader : ∀ i c, three (fun _ => some 0) i = some c → c.leader = some 0 := by
    intro i c hc
    unfold three at hc
    split_ifs at hc
    rw [← Option.some.inj hc]
  obtain ⟨hagree, hvalid, -⟩ := single_start_safe 3 (three fun _ => some 0) (some 0) hleader competing (by decide +kernel)
  exact ⟨by decide +kernel, by decide +kernel, hagree, hvalid⟩

/-! ## Several leaders -/

/-- replica `i` decided on the fast path, on replies that all report the proposal `p` first -/
def FastDecides (w : Concrete V) (i : NodeId) (p : Proposal V) : Prop :=
  ∃ nd ∈ w.nodes i, nd.proposer.decidedViaFastPath = true ∧ nd.proposer.replies ≠ [] ∧
    ∀ r ∈ nd.proposer.replies, r.first = some p

instance (w : Concrete V) (i : NodeId) (p : Proposal V) : Decidable (FastDecides w i p) := by
  unfold FastDecides; infer_instance

omit [LinearOrder V] in
theorem decidedViaFastPath_iff {p : Proposer V} :
    p.decidedViaFastPath = true ↔ (∃ v, p.decided = some v) ∧ p.step = FIRST_ROUND_STEP := by
  simp [Proposer.decidedViaFastPath, Option.isSome_iff_exists]

/-- a fast decision has its witness, whoever is taken for the leader -/
theorem Sane.fast (h : Sane n w) {i : NodeId} {nd : ReplicaNode V} (hnd : w.nodes i = some nd)
    (hfast : nd.proposer.decidedViaFastPath = true) :
    ∃ f, FastWit n ((view w).hist 0) f ∧ nd.proposer.decided = some f.value ∧
      ∀ j r, nd.proposer.Counted j r → r.first = some f := by
  obtain ⟨⟨v, hv⟩, h4⟩ := decidedViaFastPath_iff.1 hfast
  have hseat := h.arena.seat i nd.proposer (by simp [view, arenaOf, hnd])
  obtain ⟨f, hf, hfv, hall⟩ := hseat.fast v hv h4
  rw [h.slot i nd hnd] at hf
  exact ⟨f, hf, by rw [hv, hfv], hall⟩

/-- **Several leaders.** Whoever takes itself for the leader, if every proposer is started at most once: two fast
decisions are on one value, and a fast decision on the greatest `H` proposal of step 4 binds every decision. -/
theorem many_leaders_safe (n : ℕ) (cfg : NodeId → Option (ReplicaCfg V)) (ops : List ClusterOp)
    (honce : Runs.Along step StartsOnce (build n cfg) ops) :
    (∀ i j nd nd', ((build n cfg).run ops).nodes i = some nd → ((build n cfg).run ops).nodes j = some nd' →
      nd.proposer.decidedViaFastPath = true → nd'.proposer.decidedViaFastPath = true →
      nd.proposer.decided = nd'.proposer.decided) ∧
    (∀ i p, FastDecides ((build n cfg).run ops) i p →
      (∀ src dst req, ⟨src, dst, .request req⟩ ∈ sentOf ((build n cfg).run ops).trace →
        req.reqStep = FIRST_ROUND_STEP → req.proposal.priority = H → req.proposal ≤ p) →
      ∀ j v, ((build n cfg).run ops).decided j = some v → v = p.value) := by
  obtain ⟨hsane, hspread⟩ := solo_run honce
  have hcap : Arena.Capped (view ((build n cfg).run ops)) := capped_run cfg ops
  generalize (build n cfg).run ops = w at hsane hspread hcap
  constructor
  · intro i j nd nd' hnd hnd' hfast hfast'
    obtain ⟨f, hf, hv, -⟩ := hsane.fast hnd hfast
    obtain ⟨f', hf', hv', -⟩ := hsane.fast hnd' hfast'
    rw [hv, hv', fast_fast hf hf']
  · rintro i p ⟨nd, hnd, hfast, hne, hall⟩ hgreatest j v hv
    obtain ⟨f, hf, hfv, hfall⟩ := hsane.fast hnd hfast
    -- the replies name the proposal of the witness
    have hfp : f = p := by
      obtain ⟨r, hr⟩ := List.exists_mem_of_ne_nil _ hne
      obtain ⟨m, hm⟩ := Proposer.mem_replies.1 hr
      exact Option.some.inj ((hfall m r hm).symm.trans (hall r hr))
    subst hfp
    have htop : FastTop n ((view w).hist 0) := by
      rintro q hq x ⟨src, dst, hx⟩
      rw [← fast_fast hf hq]
      by_cases hH : x.priority = H
      · exact hgreatest src dst _ hx rfl hH
      · refine Proposal.le_of_priority_lt ?_
        rw [hf.1]
        exact lt_of_le_of_ne (hcap 0 _ x ⟨src, dst, hx⟩) hH
    exact Arena.decisions_agree hsane.arena hspread htop (hsane.decides hspread hv) (.inl ⟨f, hf, rfl⟩)

/-- every replica takes itself for the leader: replica 2 hears from itself and replica 1 before the requests of replica 0
arrive, and then all messages arrive in the order they were sent in -/
def twoLeaders : List ClusterOp :=
  [.kick 0, .kick 2, .env (.tick 1), .env (.fire 0 (drawing 1)), .env (.fire 0 (drawing 1)),
    .env (.deliver 4 (drawing 1)), .env (.deliver 4 (drawing 1)), .env (.deliver 4 (drawing 1)),
    .env (.deliver 4 (drawing 1))] ++ List.replicate 19 (.env (.deliver 0 (drawing 1)))

/-- of two `H` proposals, replica 2 fast-decides the greater one, and replica 0 decides it too, in step 6 -/
theorem many_leaders_safe_three :
    FastDecides ((build 3 (three some)).run twoLeaders) 2 ⟨2, H, 2⟩ ∧
    ((build 3 (three some)).run twoLeaders).decided 0 = some 2 ∧
    ∀ j v, ((build 3 (three some)).run twoLeaders).decided j = some v → v = 2 := by
  have hfast : FastDecides ((build 3 (three some)).run twoLeaders) 2 ⟨2, H, 2⟩ := by decide +kernel
  have hsent : ((sentOf ((build 3 (three some)).run twoLeaders).trace).all fun e =>
      match e.payload with
      | .request req => decide (req.proposal ≤ ⟨2, H, 2⟩)
      | .response _ => true) = true := by decide +kernel
  refine ⟨hfast, by decide +kernel,
    (many_leaders_safe 3 (three some) twoLeaders (by decide +kernel)).2 2 ⟨2, H, 2⟩ hfast ?_⟩
  intro src dst req he _ _
  simpa using List.all_eq_true.1 hsent _ he

end Concrete

end Queso
