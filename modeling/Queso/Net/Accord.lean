/-
One log over the processes of a cluster, through crashes, disk faults and restarts.

An `Audit` is a cluster with the calls that its recorders served, as far as the batches that served them are on disk.
`Charted` says that some arena shows the cluster: what was released was sent, what is on disk was served and decided,
and a live replica is the one of its node. A batch that never reaches the disk nor the network leaves the arena alone.

- `moved`: all that a step of a process does to its disk, its replica and what it lets go of.
- `charted_step`: every boot, batch, fault and kill is a run of fine acts.
- `one_log`: if no reply completes a phase uncovered, and the leader's process does not forget what it let go of, then
  all logs on disk and in memory are prefixes of one, and every outcome that a client ever got is that log's.
- `one_log_crash_stop`: so it is, with nothing else assumed, where no process returns.
-/
import Queso.Net.Crew

namespace Queso.Net

/-! ## A step of a process -/

/-- the step put a new snapshot in place -/
def Process.lands (p p' : Process) : Bool := (p'.saves.drop p.saves.length).any fun s => s.ending.landed

/-- all that a step of a process does -/
inductive Moved (b : Bincode) (cfg : Config) (p p' : Process) (op : ProcOp) : Prop where
  | quiet (hreleased : p'.released = p.released) (hsaves : lastLanded p'.saves = lastLanded p.saves)
      (hland : p.lands p' = false) (hrun : p'.running = p.running ∨ p'.running = none)
  | cold {fault} (hop : op.boots = true) (hdown : p.running = none) (hload : load b p.disk = .ok none)
      (hreleased : p'.released = p.released) (hsaves : p'.saves = p.saves)
      (hrun : p'.running = some (.boot cfg fault .default 0))
  | rejoins {fault durable maxTick elapsed rng} {r₀ r : Running} (hop : op.boots = true) (hdown : p.running = none)
      (hload : load b p.disk = .ok (some (durable, maxTick)))
      (hboot : r₀ = (Running.boot cfg fault durable maxTick).tickNow elapsed)
      (hcall : r₀.absorb cfg (r₀.node.onRestart (r₀.ctx cfg rng) r₀.shared) = .ok r) (hsaves : p'.saves = p.saves)
      (hgo : LetsGo p.released p' r)
  | batch {first ready kill} {r₀ r : Running} (hop : op = .batch first ready kill) (hup : p.running = some r₀)
      (hbatch : r₀.applyBatch cfg (Process.batchOf first ready) = .ok r)
      (hsaves : (∃ tick ending, p'.saves = p.saves ++ [⟨r.node.durable, tick, ending⟩] ∧ ending.landed = true) ∨
        p'.saves = p.saves ∧ ((Process.batchOf first ready).any fun d => d.event.mayMutateDurable) = false ∧
          (p'.released = p.released → r.flushed cfg = []))
      (hgo : LetsGo p.released p' r)

theorem lands_same {p p' : Process} (h : p'.saves = p.saves) : p.lands p' = false := by
  unfold Process.lands
  rw [h, List.drop_length]
  rfl

theorem lands_snoc {p p' : Process} {s : Save} (h : p'.saves = p.saves ++ [s]) : p.lands p' = s.ending.landed := by
  unfold Process.lands
  rw [h, List.drop_left]
  simp

theorem released_kill (p : Process) (r : Running) (releases : List Release) (kill : Option ℕ) :
    (p.release r releases kill).released = p.released ∧ (p.release r releases kill).running = none ∨
      ((p.release r releases kill).released = p.released → releases = []) := by
  cases kill with
  | none => exact .inr fun h => by simpa [Process.release] using h
  | some n =>
    by_cases hn : releases.take n = []
    · exact .inl ⟨by simp [Process.release, hn], rfl⟩
    · exact .inr fun h => absurd (by simpa [Process.release] using h) hn

theorem release_saves (p : Process) (r : Running) (releases : List Release) (kill : Option ℕ) :
    (p.release r releases kill).saves = p.saves := by
  cases kill <;> rfl

theorem moved (b : Bincode) (cfg : Config) (p : Process) (op : ProcOp) : Moved b cfg p (p.step b cfg op) op := by
  have hstay : Moved b cfg p p op := .quiet rfl rfl (lands_same rfl) (.inl rfl)
  cases op with
  | kill => exact .quiet rfl rfl (lands_same rfl) (.inr rfl)
  | boot fault elapsed rng kill =>
    unfold Process.step
    dsimp only
    split_ifs with hup
    · exact hstay
    have hdown : p.running = none := Option.not_isSome_iff_eq_none.1 hup
    unfold Process.bootFrom
    cases hload : load b p.disk with
    | error e => exact hstay
    | ok found =>
      cases found with
      | none => exact .cold rfl hdown hload rfl rfl rfl
      | some snapshot =>
        obtain ⟨durable, maxTick⟩ := snapshot
        dsimp only
        split
        · exact hstay
        · rename_i r hr
          exact .rejoins rfl hdown hload rfl hr (release_saves _ _ _ _)
            (letsGo_release rfl rfl (fun e he => mem_flushed he) ⟨rfl, rfl, rfl⟩)
  | batch first ready kill =>
    unfold Process.step
    cases hup : p.running with
    | none => exact hstay
    | some r₀ =>
      dsimp only
      unfold Process.runBatch
      cases hbatch : r₀.applyBatch cfg (Process.batchOf first ready) with
      | error e => exact .quiet rfl rfl (lands_same rfl) (.inr rfl)
      | ok r =>
        have hsent : ∀ {r' : Running}, r'.pendingOutbound = r.pendingOutbound →
            ∀ e, .sent e ∈ r'.flushed cfg ++ r'.answers → e ∈ r.pendingOutbound := by
          intro r' hsame e he
          rcases List.mem_append.1 he with he | he
          · exact hsame ▸ mem_flushed he
          · exact absurd he mem_answers
        dsimp only
        split_ifs with hk hdone
        · exact .quiet rfl rfl (lands_same rfl) (.inr rfl)
        · unfold Process.persisted at hdone ⊢
          split_ifs at hdone ⊢ with hmsg
          · refine .batch rfl hup hbatch (.inl ⟨r.now, .done, ?_, rfl⟩) (letsGo_release rfl rfl ?_ ⟨rfl, rfl, rfl⟩)
            · rw [release_saves]
              exact congrArg (fun e => p.saves ++ [⟨r.node.durable, r.now, e⟩]) (of_decide_eq_true hdone)
            · exact hsent rfl
          · -- nothing was persisted: what was not released is lost with the process
            rcases released_kill p r.settled (r.flushed cfg ++ r.answers) (kill.bind Kill.release) with
              ⟨hsame, hnone⟩ | hloud
            · exact .quiet hsame (by rw [release_saves]) (lands_same (release_saves _ _ _ _)) (.inr hnone)
            · refine .batch rfl hup hbatch (.inr ⟨release_saves _ _ _ _, Bool.eq_false_iff.2 hmsg, fun hsame => ?_⟩)
                (letsGo_release rfl rfl (hsent rfl) ⟨rfl, rfl, rfl⟩)
              exact (List.append_eq_nil_iff.1 (hloud hsame)).1
        · unfold Process.persisted at hdone ⊢
          split_ifs at hdone ⊢ with hmsg
          · -- the write did not end well, but it may have put the snapshot in place
            generalize hw : persist b r.fault (kill.bind Kill.write) p.disk r.node.durable r.now = w
            cases hl : w.ending.landed with
            | true =>
              refine .batch rfl hup hbatch (.inl ⟨r.now, w.ending, rfl, hl⟩) ⟨⟨[], (List.append_nil _).symm, ?_⟩, ?_⟩
              · exact fun e he => absurd he List.not_mem_nil
              · exact fun r' hr => absurd hr (by simp)
            | false =>
              have hlast := (lastLanded_snoc p.saves ⟨r.node.durable, r.now, w.ending⟩).trans (if_neg (by simp [hl]))
              exact .quiet rfl hlast ((lands_snoc rfl).trans hl) (.inr rfl)
          · exact absurd rfl hdone

/-! ## A cluster and its arena -/

/-- a cluster, and the calls that its recorders served as far as they are on disk -/
structure Audit where
  cluster : Cluster
  served : ℕ → NodeId → List (ℕ × Proposal Command)

namespace Audit

def blank : Audit := ⟨.blank, fun _ _ => []⟩

/-- a batch counts as served once its snapshot is in place -/
def step (b : Bincode) (d : Deployment) (u : Audit) (o : ClusterOp) : Audit :=
  ⟨u.cluster.step b d o,
    if (u.cluster o.id).lands (u.cluster.step b d o o.id) = true then serveAll o.id u.served o.op.events else u.served⟩

abbrev run (b : Bincode) (d : Deployment) (ops : List ClusterOp) : Audit := Runs.run (step b d) blank ops

/-- every reply of the step's batch is covered by what its counted recorders served -/
def Covered (d : Deployment) (u : Audit) (o : ClusterOp) : Prop :=
  ∀ r ∈ (u.cluster o.id).running, r.Covered (d.config o.id) u.served o.op.events

instance (d : Deployment) (u : Audit) (o : ClusterOp) : Decidable (Covered d u o) := by
  unfold Covered; infer_instance

/-- the audit changes nothing -/
theorem run_cluster (b : Bincode) (d : Deployment) (ops : List ClusterOp) :
    (run b d ops).cluster = Cluster.run b d ops := by
  have hrun : ∀ u : Audit, (Runs.run (step b d) u ops).cluster = Runs.run (Cluster.step b d) u.cluster ops := by
    induction ops with
    | nil => exact fun _ => rfl
    | cons o ops ih => exact fun u => ih (step b d u o)
  exact hrun blank

end Audit

/-- replica `i` may have sent for slot `k`: a live one as its node reaches, a dead one up to its frontier on disk -/
def Front (ρ : Rules) (i : NodeId) (p : Process) (k : ℕ) : Prop :=
  match p.running with
  | some r => ρ.Reach i r.node k
  | none => ρ.Careful i → k ≤ (onDisk p.saves).nextSlot

/-- the arena `a` shows the cluster of `u` -/
structure Charted (b : Bincode) (ρ : Rules) (u : Audit) (a : Arena Command) : Prop where
  sound : ∀ i, Sound b (u.cluster i)
  good : Good ρ (fun i => Front ρ i (u.cluster i)) a
  calls : a.calls = u.served
  released : ∀ i e, .sent e ∈ (u.cluster i).released → e ∈ a.sends
  backs : ∀ i, Backs ρ i (onDisk (u.cluster i).saves) a
  running : ∀ i r, (u.cluster i).running = some r → Crew ρ i r.node r.shared a
  down : ∀ i, (u.cluster i).running = none → a.props i = none
  /-- a process that let go of nothing, and has nothing on disk, sent no request -/
  silent : ∀ i, i < ρ.size → (u.cluster i).released = [] → lastLanded (u.cluster i).saves = none →
    ∀ j req, ⟨i, j, .request req⟩ ∉ a.sends
  beyond : ∀ i, ρ.size ≤ i → u.cluster i = .blank

theorem serveAll_other {i j : NodeId} (hj : j ≠ i) (events : List Dispatch)
    (calls : ℕ → NodeId → List (ℕ × Proposal Command)) (k : ℕ) : serveAll i calls events k j = calls k j := by
  induction events generalizing calls with
  | nil => rfl
  | cons d ds ih =>
    refine (ih (d.event.serve i calls)).trans ?_
    match d.event with
    | .message _ (.request req) =>
      by_cases hk : k = req.slot
      · subst hk
        simp [Event.serve, hj]
      · simp [Event.serve, hk]
    | .message _ (.response _) => rfl
    | .timer _ => rfl
    | .clientSubmit _ => rfl

theorem serveAll_quiet {i : NodeId} {events : List Dispatch}
    (h : (events.any fun d => d.event.mayMutateDurable) = false) (calls : ℕ → NodeId → List (ℕ × Proposal Command)) :
    serveAll i calls events = calls := by
  induction events generalizing calls with
  | nil => rfl
  | cons d ds ih =>
    rw [List.any_cons, Bool.or_eq_false_iff] at h
    have hd : d.event.serve i calls = calls := by
      match hev : d.event with
      | .message _ _ => rw [hev] at h; exact absurd h.1 (by simp [Event.mayMutateDurable])
      | .timer _ => rfl
      | .clientSubmit _ => rfl
    show serveAll i (d.event.serve i calls) ds = calls
    rw [hd]
    exact ih h.2 calls

/-- what a step of process `i` leaves in the arena, next to the process itself -/
structure Leaves (b : Bincode) (ρ : Rules) (u : Audit) (i : NodeId) (p : Process) (a a' : Arena Command) : Prop where
  sound : Sound b p
  good : Good ρ (Function.update (fun j => Front ρ j (u.cluster j)) i (Front ρ i p)) a'
  le : a.Le a'
  props : ∀ j, j ≠ i → a'.props j = a.props j
  calls : ∀ k j, j ≠ i → a'.calls k j = a.calls k j
  sends : ∀ e ∈ a'.sends, e ∈ a.sends ∨ e.src = i
  released : ∀ e, .sent e ∈ p.released → e ∈ a'.sends
  backs : Backs ρ i (onDisk p.saves) a'
  running : ∀ r, p.running = some r → Crew ρ i r.node r.shared a'
  down : p.running = none → a'.props i = none
  silent : p.released = [] → lastLanded p.saves = none → ∀ j req, ⟨i, j, .request req⟩ ∉ a'.sends

theorem Charted.update {b : Bincode} {ρ : Rules} {u : Audit} {a a' : Arena Command} (h : Charted b ρ u a) {i : NodeId}
    (hi : i < ρ.size) {p : Process} (hl : Leaves b ρ u i p a a')
    {served : ℕ → NodeId → List (ℕ × Proposal Command)} (hserved : a'.calls = served) :
    Charted b ρ ⟨Function.update u.cluster i p, served⟩ a' := by
  have hfront : (fun j => Front ρ j (Function.update u.cluster i p j)) =
      Function.update (fun j => Front ρ j (u.cluster j)) i (Front ρ i p) := by
    funext j
    by_cases hj : j = i
    · subst hj
      rw [Function.update_self, Function.update_self]
    · rw [Function.update_of_ne hj, Function.update_of_ne hj]
  refine ⟨fun j => ?_, hfront ▸ hl.good, hserved, fun j e he => ?_, fun j => ?_, fun j r hr => ?_, fun j hr => ?_,
    fun j hj hsame hnone => ?_, fun j hj => ?_⟩
  all_goals
    dsimp only at *
    by_cases hji : j = i
  · subst hji; rw [Function.update_self]; exact hl.sound
  · rw [Function.update_of_ne hji]; exact h.sound j
  · subst hji; rw [Function.update_self] at he; exact hl.released e he
  · rw [Function.update_of_ne hji] at he; exact hl.le.sends e (h.released j e he)
  · subst hji; rw [Function.update_self]; exact hl.backs
  · rw [Function.update_of_ne hji]
    exact (h.backs j).mono hl.le fun k => hl.calls k j hji
  · subst hji; rw [Function.update_self] at hr; exact hl.running r hr
  · rw [Function.update_of_ne hji] at hr
    exact (h.running j r hr).mono hl.le (hl.props j hji) fun k => hl.calls k j hji
  · subst hji; rw [Function.update_self] at hr; exact hl.down hr
  · rw [Function.update_of_ne hji] at hr
    exact (hl.props j hji).trans (h.down j hr)
  · subst hji; rw [Function.update_self] at hsame hnone; exact hl.silent hsame hnone
  · rw [Function.update_of_ne hji] at hsame hnone
    intro m req hmem
    rcases hl.sends _ hmem with hold | hsrc
    · exact h.silent j hj hsame hnone m req hold
    · exact hji hsrc
  · subst hji; exact absurd hj (not_le.2 hi)
  · rw [Function.update_of_ne hji]; exact h.beyond j hj

/-- a process that went down after it came to `r` -/
theorem Good.ends {ρ : Rules} {R : NodeId → ℕ → Prop} {a : Arena Command} {i : NodeId} {nd : SmrNode} {p : Process}
    (h : Good ρ (Function.update R i (ρ.Reach i nd)) a) (hdown : p.running = none)
    (hdur : nd.durable = onDisk p.saves) : Good ρ (Function.update R i (Front ρ i p)) (a.step (.retire i)) := by
  refine (h.retire i).mono fun j k => ?_
  by_cases hj : j = i
  · subst hj
    rw [Function.update_self, Function.update_self]
    unfold Front
    rw [hdown, ← hdur]
    intro hreach hcare
    rcases hreach hcare with hlt | ⟨rfl, -⟩
    · exact hlt.le
    · exact le_rfl
  · rw [Function.update_of_ne hj, Function.update_of_ne hj]
    exact id

/-- the process let go of some of what it came to send, and goes on or went down -/
theorem leaves_of_reached {b : Bincode} {ρ : Rules} {u : Audit} {a a₁ : Arena Command} (h : Charted b ρ u a)
    {i : NodeId} {p : Process} {r : Running} (hsound : Sound b p)
    (hg : Good ρ (Function.update (fun j => Front ρ j (u.cluster j)) i (ρ.Reach i r.node)) a₁)
    (hc : Crew ρ i r.node r.shared a₁) (hle : a.Le a₁) (hprops : ∀ j, j ≠ i → a₁.props j = a.props j)
    (hcalls : ∀ k j, j ≠ i → a₁.calls k j = a.calls k j) (hsends : ∀ e ∈ a₁.sends, e ∈ a.sends ∨ e.src = i)
    (hpend : ∀ e ∈ r.pendingOutbound, e ∈ a₁.sends) (hgo : LetsGo (u.cluster i).released p r)
    (hdur : r.node.durable = onDisk p.saves)
    (hsilent : p.released = [] → lastLanded p.saves = none → ∀ j req, ⟨i, j, .request req⟩ ∉ a₁.sends) :
    ∃ a', Leaves b ρ u i p a a' ∧ a'.calls = a₁.calls := by
  have hreleased : ∀ e, .sent e ∈ p.released → e ∈ a₁.sends := by
    intro e he
    obtain ⟨more, hmore, hin⟩ := hgo.released
    rw [hmore] at he
    rcases List.mem_append.1 he with hold | hnew
    · exact hle.sends e (h.released i e hold)
    · exact hpend e (hin e hnew)
  have hbacks : Backs ρ i (onDisk p.saves) a₁ := hdur ▸ hc.backs
  cases hrun : p.running with
  | none =>
    have hret := Arena.le_step a₁ (.retire i)
    exact ⟨a₁.step (.retire i),
      { sound := hsound
        good := hg.ends hrun hdur
        le := hle.trans hret
        props := fun j hj => (Function.update_of_ne hj _ _).trans (hprops j hj)
        calls := hcalls
        sends := hsends
        released := hreleased
        backs := hbacks.mono hret fun _ => rfl
        running := fun r' hr' => absurd (hrun.symm.trans hr') (by simp)
        down := fun _ => Function.update_self ..
        silent := hsilent }, rfl⟩
  | some r' =>
    obtain ⟨hnode, hshared, -⟩ := hgo.running r' hrun
    refine ⟨a₁,
      { sound := hsound
        good := ?_
        le := hle
        props := hprops
        calls := hcalls
        sends := hsends
        released := hreleased
        backs := hbacks
        running := fun r'' hr'' => ?_
        down := fun hdown => absurd (hrun.symm.trans hdown) (by simp)
        silent := hsilent }, rfl⟩
    · have hfront : Front ρ i p = ρ.Reach i r.node := by
        unfold Front
        rw [hrun, ← hnode]
      rw [hfront]
      exact hg
    · obtain rfl := Option.some.inj (hrun.symm.trans hr'')
      rw [hnode, hshared]
      exact hc

/-! ## A step of the cluster -/

namespace Cluster

/-- a process of the cluster steps, and is told only what was released to it -/
def Admits (d : Deployment) (c : Cluster) (o : ClusterOp) : Prop := o.id < d.totalReplicas ∧ Delivers c o

/-- the process that let go of something boots as one that never ran -/
def Forgets (b : Bincode) (c : Cluster) (o : ClusterOp) : Prop :=
  o.op.boots = true ∧ (c o.id).running.isNone = true ∧ findsNothing b (c o.id).disk = true ∧ (c o.id).released ≠ []

/-- the process boots from a snapshot, or after it let go of something -/
def Returns (b : Bincode) (c : Cluster) (o : ClusterOp) : Prop :=
  o.op.boots = true ∧ (c o.id).running.isNone = true ∧
    (findsNothing b (c o.id).disk = false ∨ (c o.id).released ≠ [])

instance (d : Deployment) (c : Cluster) (o : ClusterOp) : Decidable (Admits d c o) := by
  unfold Admits; infer_instance

instance (b : Bincode) (c : Cluster) (o : ClusterOp) : Decidable (Forgets b c o) := by
  unfold Forgets; infer_instance

instance (b : Bincode) (c : Cluster) (o : ClusterOp) : Decidable (Returns b c o) := by
  unfold Returns; infer_instance

end Cluster

section Step

variable {b : Bincode} {d : Deployment} {ρ : Rules} {u : Audit} {a : Arena Command} {o : ClusterOp}

/-- the process stays as it is, or goes down -/
theorem Charted.quiet (h : Charted b ρ u a) {i : NodeId} (hi : i < ρ.size) {p : Process} (hsound : Sound b p)
    (hreleased : p.released = (u.cluster i).released) (hsaves : lastLanded p.saves = lastLanded (u.cluster i).saves)
    (hrun : p.running = (u.cluster i).running ∨ p.running = none) :
    ∃ a', Leaves b ρ u i p a a' ∧ a'.calls = a.calls := by
  have hdisk : onDisk p.saves = onDisk (u.cluster i).saves := by unfold onDisk; rw [hsaves]
  have hsame : ∀ r, (u.cluster i).running = some r → Front ρ i (u.cluster i) = ρ.Reach i r.node := by
    intro r hr
    unfold Front
    rw [hr]
  have hself : Good ρ (Function.update (fun j => Front ρ j (u.cluster j)) i (Front ρ i (u.cluster i))) a := by
    rw [Function.update_eq_self]
    exact h.good
  have hkeep : ∀ r, (u.cluster i).running = some r →
      LetsGo (u.cluster i).released p r → ∃ a', Leaves b ρ u i p a a' ∧ a'.calls = a.calls := by
    intro r hr hgo
    obtain ⟨-, hdur, hpend⟩ := (h.sound i).running r hr
    refine leaves_of_reached h hsound (hsame r hr ▸ hself) (h.running i r hr) (.refl a) (fun _ _ => rfl)
      (fun _ _ _ => rfl) (fun e he => .inl he) (fun e he => absurd (hpend ▸ he) List.not_mem_nil) hgo
      (hdur.trans hdisk.symm) fun hnone hlast => h.silent i hi (hreleased ▸ hnone) (hsaves ▸ hlast)
  have hgo : ∀ r, (u.cluster i).running = some r → (∀ r', p.running = some r' → r' = r) →
      LetsGo (u.cluster i).released p r := by
    intro r hr hr'
    obtain ⟨-, -, hpend⟩ := (h.sound i).running r hr
    refine ⟨⟨[], by rw [hreleased, List.append_nil], fun e he => absurd he List.not_mem_nil⟩, fun r' hrun' => ?_⟩
    obtain rfl := hr' r' hrun'
    exact ⟨rfl, rfl, hpend⟩
  cases hup : (u.cluster i).running with
  | some r =>
    refine hkeep r hup (hgo r hup fun r' hr' => ?_)
    rcases hrun with hold | hnone
    · exact Option.some.inj (hr'.symm.trans (hold.trans hup))
    · exact absurd (hr'.symm.trans hnone) (by simp)
  | none =>
    have hdown : p.running = none := by
      rcases hrun with hold | hnone
      · exact hold.trans hup
      · exact hnone
    have hfront : Front ρ i p = Front ρ i (u.cluster i) := by
      unfold Front
      rw [hdown, hup, hdisk]
    exact ⟨a,
      { sound := hsound
        good := by rw [hfront]; exact hself
        le := .refl a
        props := fun _ _ => rfl
        calls := fun _ _ _ => rfl
        sends := fun e he => .inl he
        released := fun e he => h.released i e (hreleased ▸ he)
        backs := by rw [hdisk]; exact h.backs i
        running := fun r hr => absurd (hdown.symm.trans hr) (by simp)
        down := fun _ => h.down i hup
        silent := fun hnone hlast => h.silent i hi (hreleased ▸ hnone) (hsaves ▸ hlast) }, rfl⟩

theorem onDisk_none {saves : List Save} (h : lastLanded saves = none) : onDisk saves = .default := by
  unfold onDisk
  rw [h]
  rfl

/-- a process boots as one that never ran -/
theorem Charted.cold (h : Charted b ρ u a) {i : NodeId} (hi : i < ρ.size) {p : Process} {cfg : Config}
    {fault : Option DiskFault} (hsound : Sound b p) (htotal : cfg.totalReplicas = ρ.size) (hlead : cfg.leader = ρ.leader)
    (hdown : (u.cluster i).running = none) (hload : load b (u.cluster i).disk = .ok none)
    (hreleased : p.released = (u.cluster i).released) (hsaves : p.saves = (u.cluster i).saves)
    (hrun : p.running = some (.boot cfg fault .default 0)) (hsilent : ρ.Careful i → (u.cluster i).released = []) :
    Leaves b ρ u i p a a := by
  have hlast : lastLanded (u.cluster i).saves = none := Except.ok.inj ((h.sound i).loads.symm.trans hload)
  have hdisk : onDisk (u.cluster i).saves = .default := onDisk_none hlast
  have hback := h.backs i
  refine
    { sound := hsound
      good := { h.good with within := ⟨fun j m k s x he => ?_, fun j q hq => ?_⟩ }
      le := .refl a
      props := fun _ _ => rfl
      calls := fun _ _ _ => rfl
      sends := fun e he => .inl he
      released := fun e he => h.released i e (hreleased ▸ he)
      backs := by rw [hsaves]; exact hback
      running := fun r hr => ?_
      down := fun hnone => absurd (hrun.symm.trans hnone) (by simp)
      silent := fun hnone hlast' => h.silent i hi (hreleased ▸ hnone) (hsaves ▸ hlast') }
  · by_cases hj : j = i
    · subst hj
      rw [Function.update_self]
      unfold Front
      rw [hrun]
      exact fun hcare => absurd he (h.silent j hi (hsilent hcare) hlast m _)
    · rw [Function.update_of_ne hj]
      exact h.good.within.sent j m k s x he
  · by_cases hj : j = i
    · subst hj
      exact absurd ((h.down j hdown).symm.trans hq) (by simp)
    · rw [Function.update_of_ne hj]
      exact h.good.within.hosted j q hq
  · obtain rfl := Option.some.inj (hrun.symm.trans hr)
    exact
      { hosted := h.down i hdown
        backs := hdisk ▸ hback
        total := htotal
        policy := congrArg LeaderPolicy.fixed hlead
        live := fun t ht => absurd ht (by simp [Running.boot, SmrNode.new])
        queued := fun q hq => absurd hq (by simp [Running.boot, SmrNode.new])
        learned := fun _ => rfl }

/-- a process rejoins from its snapshot -/
theorem Charted.rejoins (h : Charted b ρ u a) (cfg : Config) {p : Process} {fault : Option DiskFault}
    {durable : Durable} {maxTick elapsed : ℕ} {rng : NodeId → Draw} {r₀ r : Running} (hnever : ¬ ρ.once)
    (hsound : Sound b p) (htotal : cfg.totalReplicas = ρ.size) (hlead : cfg.leader = ρ.leader)
    (hdown : (u.cluster cfg.id).running = none) (hload : load b (u.cluster cfg.id).disk = .ok (some (durable, maxTick)))
    (hboot : r₀ = (Running.boot cfg fault durable maxTick).tickNow elapsed)
    (hcall : r₀.absorb cfg (r₀.node.onRestart (r₀.ctx cfg rng) r₀.shared) = .ok r)
    (hsaves : p.saves = (u.cluster cfg.id).saves) (hgo : LetsGo (u.cluster cfg.id).released p r) :
    ∃ a', Leaves b ρ u cfg.id p a a' ∧ a'.calls = a.calls := by
  have hlast : lastLanded (u.cluster cfg.id).saves = some (durable, maxTick) :=
    Except.ok.inj ((h.sound cfg.id).loads.symm.trans hload)
  have hdisk : onDisk (u.cluster cfg.id).saves = durable := by unfold onDisk; rw [hlast]; rfl
  obtain ⟨nd', sh', fx, ho, -⟩ := Running.absorb_ok hcall
  obtain ⟨rfl, rfl, hpend⟩ := absorb_tagging hcall ho
  have hst := SmrNode.onRestart_moves ho
  subst hboot
  have hdur : r.node.durable = durable := hst.keeps.durable
  obtain ⟨delay, ⟨counted, hb⟩, -⟩ := hst.drives
  have hreach : ∀ j k, Front ρ j (u.cluster j) k →
      Function.update (fun j => Front ρ j (u.cluster j)) cfg.id (ρ.Reach cfg.id r.node) j k := by
    intro j k hk
    by_cases hj : j = cfg.id
    · subst hj
      rw [Function.update_self]
      unfold Front at hk
      rw [hdown, hdisk] at hk
      intro hcare
      rw [hdur]
      rcases (hk hcare).eq_or_lt with rfl | hlt
      · exact .inr ⟨rfl, by rw [hb]; rfl⟩
      · exact .inl hlt
    · rw [Function.update_of_ne hj]
      exact hk
  have hgood := (h.good.mono hreach).started hst htotal (.inl rfl) (fun honce => absurd honce hnever) (.inl rfl) <| by
    show Function.update (fun j => Front ρ j (u.cluster j)) cfg.id (ρ.Reach cfg.id r.node) cfg.id durable.nextSlot
    rw [Function.update_self]
    exact fun _ => .inr ⟨by rw [hdur], by rw [hb]; rfl⟩
  have hcrew : Crew ρ cfg.id r.node r.shared (a.swap cfg.id r.node.hosted (sendsOf cfg.id fx)) :=
    Crew.started hst (hdisk ▸ h.backs cfg.id) htotal (congrArg LeaderPolicy.fixed hlead)
      (fun o ho => absurd ho List.not_mem_nil) (fun _ => rfl) (fun id ho => absurd ho (by simp))
      (fun honce => absurd honce hnever) _
  have hpend' : r.pendingOutbound = sendsOf cfg.id fx := hpend
  have hsent : ∀ e ∈ (a.swap cfg.id r.node.hosted (sendsOf cfg.id fx)).sends, e ∈ a.sends ∨ e.src = cfg.id := by
    intro e he
    exact (List.mem_append.1 he).imp_right Smr.sendsOf_src
  have hwaits : ∀ e ∈ r.pendingOutbound, e ∈ (a.swap cfg.id r.node.hosted (sendsOf cfg.id fx)).sends := by
    intro e he
    exact List.mem_append_right _ (hpend' ▸ he)
  obtain ⟨a', hl, hcalls⟩ := leaves_of_reached h hsound hgood hcrew (Arena.le_swap _ _ _ _)
    (fun j hj => Function.update_of_ne hj _ _) (fun _ _ _ => rfl) hsent hwaits hgo (by rw [hdur, hsaves, hdisk])
    fun _ hnone => absurd (hlast.symm.trans (hsaves ▸ hnone)) (by simp)
  exact ⟨a', hl, hcalls⟩

/-- **A batch** takes the arena along, as far as the process let go of anything or put a snapshot in place. -/
theorem Charted.batch (h : Charted b ρ u a) (cfg : Config) (hi : cfg.id < ρ.size) {p : Process}
    {events : List Dispatch} {r₀ r : Running} (hsound : Sound b p) (hup : (u.cluster cfg.id).running = some r₀)
    (hm : ∀ d ∈ events, ∀ src payload, d.event = .message src payload →
      .sent ⟨src, cfg.id, payload⟩ ∈ (u.cluster src).released)
    (hasked : ∀ d ∈ events, ∀ c, d.event = .clientSubmit c → ρ.Asked c)
    (hcov : ρ.once ∨ r₀.Covered cfg u.served events) (hbatch : r₀.applyBatch cfg events = .ok r)
    (hsaves : (∃ tick ending, p.saves = (u.cluster cfg.id).saves ++ [⟨r.node.durable, tick, ending⟩] ∧
        ending.landed = true) ∨
      p.saves = (u.cluster cfg.id).saves ∧ (events.any fun d => d.event.mayMutateDurable) = false ∧
        (p.released = (u.cluster cfg.id).released → r.flushed cfg = []))
    (hgo : LetsGo (u.cluster cfg.id).released p r) :
    ∃ a', Leaves b ρ u cfg.id p a a' ∧
      a'.calls = if (u.cluster cfg.id).lands p = true then serveAll cfg.id u.served events else u.served := by
  obtain ⟨hready, hdur₀, hpend₀⟩ := (h.sound cfg.id).running r₀ hup
  have hfront : Front ρ cfg.id (u.cluster cfg.id) = ρ.Reach cfg.id r₀.node := by
    unfold Front
    rw [hup]
  have hgood : Good ρ (Function.update (fun j => Front ρ j (u.cluster j)) cfg.id (ρ.Reach cfg.id r₀.node)) a := by
    rw [← hfront, Function.update_eq_self]
    exact h.good
  obtain ⟨a₁, hb⟩ := batch_came hgood (h.running cfg.id r₀ hup)
    (fun d hd src payload he => h.released src _ (hm d hd src payload he)) hasked (h.calls.symm ▸ hcov) hbatch
  obtain ⟨new, hsends, hpend, hmine⟩ := hb.sends
  rw [hpend₀, List.nil_append] at hpend
  have hdur : r.node.durable = onDisk p.saves := by
    rcases hsaves with ⟨tick, ending, heq, hl⟩ | ⟨heq, hmute, -⟩
    · rw [heq, onDisk_snoc, if_pos hl]
    · rw [heq, ← hdur₀]
      exact (applyBatch_ready hready hbatch).2.2 hmute
  have hcalls : a₁.calls =
      if (u.cluster cfg.id).lands p = true then serveAll cfg.id u.served events else u.served := by
    rw [hb.calls, h.calls]
    rcases hsaves with ⟨tick, ending, heq, hl⟩ | ⟨heq, hmute, -⟩
    · rw [lands_snoc heq, if_pos hl]
    · rw [lands_same heq, serveAll_quiet hmute]
      rfl
  obtain ⟨a', hl, hcalls'⟩ := leaves_of_reached h hsound hb.good hb.crew hb.le hb.others
    (fun k j hj => by rw [hb.calls]; exact serveAll_other hj events a.calls k)
    (fun e he => by
      rw [hsends] at he
      exact (List.mem_append.1 he).imp_right (hmine e))
    (fun e he => by rw [hsends]; exact List.mem_append_right _ (hpend ▸ he)) hgo hdur
    fun hnone hlast j req hmem => by
      -- nothing is on disk, and nothing was let go of: nothing was sent, to itself either
      rcases hsaves with ⟨tick, ending, heq, hl⟩ | ⟨heq, -, hflush⟩
      · rw [heq, lastLanded_snoc, if_pos hl] at hlast
        exact absurd hlast (by simp)
      · obtain ⟨more, hmore, -⟩ := hgo.released
        have hbefore : (u.cluster cfg.id).released = [] := (List.append_eq_nil_iff.1 (hmore.symm.trans hnone)).1
        have hold := h.silent cfg.id hi hbefore (heq ▸ hlast)
        obtain ⟨t, y, hself⟩ := hb.good.echoes cfg.id j _ _ _ hi hmem
        rw [hsends] at hself
        rcases List.mem_append.1 hself with hself | hself
        · exact hold _ _ hself
        · have hin : Release.sent ⟨cfg.id, cfg.id, .request ⟨req.slot, t, y⟩⟩ ∈ r.flushed cfg := by
            refine List.mem_map_of_mem (List.mem_filter.2 ⟨hpend ▸ hself, decide_eq_true (.inl rfl)⟩)
          rw [hflush (hnone.trans hbefore.symm)] at hin
          exact absurd hin List.not_mem_nil
  exact ⟨a', hl, hcalls'.trans hcalls⟩

/-- **Every boot, batch, fault and kill is a run of fine acts.** -/
theorem charted_step (hb : b.RoundTrips) (h : Charted b ρ u a) (hsize : ρ.size = d.totalReplicas)
    (hlead : ρ.leader = d.leader) (hadm : Cluster.Admits d u.cluster o)
    (hasked : ∀ disp ∈ o.op.events, ∀ c, disp.event = .clientSubmit c → ρ.Asked c)
    (hcov : ρ.once ∨ u.Covered d o) (hforget : ρ.Careful o.id → ¬ Cluster.Forgets b u.cluster o)
    (hreturn : ρ.once → ¬ Cluster.Returns b u.cluster o) : ∃ a', Charted b ρ (u.step b d o) a' := by
  have hi : o.id < ρ.size := hsize ▸ hadm.1
  obtain ⟨hsound, -⟩ := sound_step (d.config o.id) hb (h.sound o.id) o.op
  have hmoved := moved b (d.config o.id) (u.cluster o.id) o.op
  have hself : u.cluster.step b d o o.id = (u.cluster o.id).step b (d.config o.id) o.op := Function.update_self ..
  have hstep : u.step b d o = ⟨Function.update u.cluster o.id ((u.cluster o.id).step b (d.config o.id) o.op),
      if (u.cluster o.id).lands ((u.cluster o.id).step b (d.config o.id) o.op) = true then
        serveAll o.id u.served o.op.events else u.served⟩ := by
    rw [Audit.step, hself]
    rfl
  rw [hstep]
  generalize (u.cluster o.id).step b (d.config o.id) o.op = p at hsound hmoved ⊢
  have hleaves : ∃ a', Leaves b ρ u o.id p a a' ∧ a'.calls =
      if (u.cluster o.id).lands p = true then serveAll o.id u.served o.op.events else u.served := by
    cases hmoved with
    | quiet hreleased hsaves hland hrun =>
      obtain ⟨a', hl, hcalls⟩ := h.quiet hi hsound hreleased hsaves hrun
      exact ⟨a', hl, by rw [hcalls, h.calls, hland]; rfl⟩
    | @cold fault hop hdown hload hreleased hsaves hrun =>
      have hfinds : findsNothing b (u.cluster o.id).disk = true := by
        unfold findsNothing
        rw [hload]
      have hl := h.cold hi hsound hsize.symm hlead.symm hdown hload hreleased hsaves hrun fun hcare => by
        by_contra hne
        exact hforget hcare ⟨hop, by rw [hdown]; rfl, hfinds, hne⟩
      exact ⟨a, hl, by rw [h.calls, lands_same hsaves]; rfl⟩
    | @rejoins fault durable maxTick elapsed rng r₀ r hop hdown hload hboot hcall hsaves hgo =>
      have hfinds : findsNothing b (u.cluster o.id).disk = false := by
        unfold findsNothing
        rw [hload]
      have hnever : ¬ ρ.once := fun honce => hreturn honce ⟨hop, by rw [hdown]; rfl, .inl hfinds⟩
      obtain ⟨a', hl, hcalls⟩ := h.rejoins (d.config o.id) hnever hsound hsize.symm hlead.symm hdown hload hboot
        hcall hsaves hgo
      exact ⟨a', hl, by rw [hcalls, h.calls, lands_same hsaves]; rfl⟩
    | @batch first ready kill r₀ r hop hup hbatch hsaves hgo =>
      have hevents : o.op.events = Process.batchOf first ready := by rw [hop]; rfl
      rw [hevents] at hasked ⊢
      refine h.batch (d.config o.id) hi hsound hup (fun disp hdisp => hadm.2 disp (hevents ▸ hdisp)) hasked
        (hcov.imp_right fun hc => ?_) hbatch hsaves hgo
      rw [← hevents]
      exact hc r₀ hup
  obtain ⟨a', hl, hcalls⟩ := hleaves
  exact ⟨a', h.update hi hl hcalls⟩

theorem charted_blank (b : Bincode) (ρ : Rules) : Charted b ρ .blank (.init fun _ => none) where
  sound := fun _ => sound_blank b
  good :=
    { inv := Arena.inv_init fun _ _ hp => absurd hp (by simp)
      sole := Arena.sole_init
      carries :=
        { flows := ⟨fun _ _ _ ⟨_, _, he⟩ => absurd he (by simp [Arena.init]), fun _ _ hp => absurd hp (by simp [Arena.init])⟩
          fresh := fun _ _ hp => absurd hp (by simp [Arena.init]) }
      spreads := Arena.spread_init fun _ _ hp => absurd hp (by simp)
      solo := fun _ => Arena.solo_init _
      within := ⟨fun _ _ _ _ _ he => absurd he (by simp [Arena.init]), fun _ _ hp => absurd hp (by simp [Arena.init])⟩
      echoes := fun _ _ _ _ _ _ he => absurd he (by simp [Arena.init]) }
  calls := rfl
  released := fun i e he => absurd he (by simp [Audit.blank, Cluster.blank, Process.blank])
  backs := fun i => backs_default fun _ => rfl
  running := fun i r hr => absurd hr (by simp [Audit.blank, Cluster.blank, Process.blank])
  down := fun _ _ => rfl
  silent := fun _ _ _ _ _ _ he => absurd he (by simp [Arena.init])
  beyond := fun _ _ => rfl

end Step

/-- a process that was not booted is as it was at first -/
theorem unbooted_blank (b : Bincode) (d : Deployment) {ops : List ClusterOp} {i : NodeId}
    (hops : ∀ o ∈ ops, o.id = i → o.op.boots = false) : Cluster.run b d ops i = .blank := by
  induction ops using List.reverseRecOn with
  | nil => rfl
  | append_singleton ops o ih =>
    have hbefore := ih fun o' ho' => hops o' (List.mem_append_left _ ho')
    rw [Cluster.run, Runs.run_snoc, ← Cluster.run, Cluster.step]
    by_cases hi : o.id = i
    · subst hi
      have hboot := hops o (by simp) rfl
      rw [Function.update_self, hbefore]
      cases hop : o.op with
      | boot fault elapsed rng kill => rw [hop] at hboot; exact absurd hboot (by simp [ProcOp.boots])
      | batch first ready kill => rfl
      | kill => rfl
    · rw [Function.update_of_ne (Ne.symm hi)]
      exact hbefore

/-! ## One log -/

/-- the outcome that a client got is that of its command at its slot in `log` -/
def Explains (log : List Command) (record : OpRecord) : Prop :=
  ∃ k, record.decidedSlot = some k ∧ log[k]? = some record.command ∧
    record.outcome = some (record.command.outcome ((Kv.replay (log.take k)).apply record.command).2)

/-- some client submitted the command in the run -/
def Submitted (ops : List ClusterOp) (c : Command) : Prop :=
  ∃ o ∈ ops, ∃ disp ∈ o.op.events, disp.event = .clientSubmit c

/-- all logs on disk and in memory are prefixes of one, on commands that clients submitted and on probes, and every
outcome that a client ever got is that log's -/
def OneLog (ops : List ClusterOp) (c : Cluster) : Prop :=
  ∃ log : List Command, (∀ i, (onDisk (c i).saves).appliedLog <+: log) ∧
    (∀ i r, (c i).running = some r → r.node.durable.appliedLog <+: log) ∧
    (∀ k x, log[k]? = some x → x = catchUpProbe k ∨ Submitted ops x) ∧
    ∀ i id record, .outcome id record ∈ (c i).released → Explains log record

theorem AppliedAs.explains {d : Durable} {record : OpRecord} (h : AppliedAs d record) (hd : Lawful d)
    {log : List Command} (hlog : d.appliedLog <+: log) : Explains log record := by
  obtain ⟨k, hk, hlt, hat, hout⟩ := h
  obtain ⟨more, rfl⟩ := hlog
  have hlen : k < d.appliedLog.length := hd.frontier ▸ hlt
  refine ⟨k, hk, ?_, ?_⟩
  · rw [List.getElem?_append_left hlen]
    exact hat
  · rw [List.take_append_of_le_length hlen.le]
    exact hout

/-- two logs that agree slot by slot are prefixes of one another -/
theorem prefix_of_agree {l m : List Command} (h : ∀ (k : ℕ) x y, l[k]? = some x → m[k]? = some y → x = y)
    (hle : l.length ≤ m.length) : l <+: m := by
  rw [List.prefix_iff_getElem?]
  intro k hk
  have hm : m[k]? = some m[k] := List.getElem?_eq_getElem (hk.trans_le hle)
  rw [hm, h k _ _ (List.getElem?_eq_getElem hk) hm]

/-- **A charted cluster has one log.** -/
theorem Charted.oneLog {b : Bincode} {ρ : Rules} {u : Audit} {a : Arena Command} (h : Charted b ρ u a)
    {ops : List ClusterOp} (hasked : ∀ c, ρ.Asked c → Submitted ops c) : OneLog ops u.cluster := by
  let logOf : NodeId → List Command := fun i => (onDisk (u.cluster i).saves).appliedLog
  have hagree : ∀ i j (k : ℕ) x y, (logOf i)[k]? = some x → (logOf j)[k]? = some y → x = y := fun i j k x y hx hy =>
    h.good.decides_eq ((h.backs i).applied k x hx) ((h.backs j).applied k y hy)
  -- the longest log on disk; beyond the cluster there is none
  obtain ⟨m, hm⟩ : ∃ m, ∀ i, (logOf i).length ≤ (logOf m).length := by
    obtain ⟨m, -, hm⟩ := Finset.exists_max_image (Finset.range (ρ.size + 1)) (fun i => (logOf i).length)
      ⟨ρ.size, by simp⟩
    refine ⟨m, fun i => ?_⟩
    by_cases hi : i < ρ.size
    · exact hm i (Finset.mem_range.2 (Nat.lt_succ_of_lt hi))
    · have hblank : logOf i = [] := by
        show (onDisk (u.cluster i).saves).appliedLog = []
        rw [h.beyond i (not_lt.1 hi)]
        rfl
      rw [hblank]
      exact Nat.zero_le _
  have hpre : ∀ i, logOf i <+: logOf m := fun i => prefix_of_agree (hagree i m) (hm i)
  refine ⟨logOf m, hpre, fun i r hr => ?_, fun k x hx => ?_, fun i id record hrel => ?_⟩
  · rw [((h.sound i).running r hr).2.1]
    exact hpre i
  · exact (h.good.decides_may ((h.backs m).applied k x hx)).imp_right (hasked x)
  · cases (h.sound i).released _ hrel trivial with
    | outcome happlied => exact happlied.explains (h.sound i).lawful (hpre i)

theorem charted_run {b : Bincode} (hb : b.RoundTrips) {d : Deployment} {ρ : Rules} (hsize : ρ.size = d.totalReplicas)
    (hlead : ρ.leader = d.leader) {ops : List ClusterOp}
    (hops : Runs.Along (Audit.step b d) (fun u o => Cluster.Admits d u.cluster o ∧
      (∀ disp ∈ o.op.events, ∀ c, disp.event = .clientSubmit c → ρ.Asked c) ∧ (ρ.once ∨ u.Covered d o) ∧
      (ρ.Careful o.id → ¬ Cluster.Forgets b u.cluster o) ∧ (ρ.once → ¬ Cluster.Returns b u.cluster o)) .blank ops) :
    ∃ a, Charted b ρ (Audit.run b d ops) a :=
  Runs.run_invariant (I := fun u => ∃ a, Charted b ρ u a)
    (fun _ _ ⟨_, h⟩ ⟨hadm, hasked, hcov, hforget, hreturn⟩ =>
      charted_step hb h hsize hlead hadm hasked hcov hforget hreturn)
    ⟨_, charted_blank b ρ⟩ hops

/-- what is submitted along a run was submitted in it -/
theorem submitted_along {σ : Type} (step : σ → ClusterOp → σ) (s : σ) (ops : List ClusterOp) :
    Runs.Along step (fun _ o => ∀ disp ∈ o.op.events, ∀ c, disp.event = .clientSubmit c → Submitted ops c) s ops :=
  (Runs.along_mem step s ops).imp fun _ o ho disp hdisp _ he => ⟨o, ho, disp, hdisp, he⟩

/-- what holds along a run of the cluster holds along its audit -/
theorem along_audit {b : Bincode} {d : Deployment} {P : Cluster → ClusterOp → Prop} {u : Audit} {ops : List ClusterOp}
    (h : Runs.Along (Cluster.step b d) P u.cluster ops) :
    Runs.Along (Audit.step b d) (fun u o => P u.cluster o) u ops := by
  induction ops generalizing u with
  | nil => trivial
  | cons o ops ih => exact ⟨h.1, ih h.2⟩

/-- no process returns; or every reply that completes a phase is covered, and the leader's process is never taken for one
that never ran after it let go of anything -/
def Cluster.Guarded (b : Bincode) (d : Deployment) (ops : List ClusterOp) : Prop :=
  Runs.Along (Cluster.step b d) (fun c o => ¬ Cluster.Returns b c o) .blank ops ∨
    Runs.Along (Cluster.step b d) (fun c o => d.leader = some o.id → ¬ Cluster.Forgets b c o) .blank ops ∧
      Runs.Along (Audit.step b d) (Audit.Covered d) .blank ops

theorem Cluster.Guarded.before {b : Bincode} {d : Deployment} {ops more : List ClusterOp} (h : Guarded b d (ops ++ more)) :
    Guarded b d ops := by
  unfold Guarded at h ⊢
  simp only [Runs.along_append] at h
  exact h.imp (·.1) fun ⟨hleader, hcov⟩ => ⟨hleader.1, hcov.1⟩

/-- **A guarded cluster has one log.** -/
theorem Cluster.Guarded.oneLog {b : Bincode} {d : Deployment} {ops : List ClusterOp} (h : Guarded b d ops)
    (hb : b.RoundTrips) (hadm : Runs.Along (Cluster.step b d) (Cluster.Admits d) .blank ops) :
    OneLog ops (Cluster.run b d ops) := by
  rw [← Audit.run_cluster]
  rcases h with hstop | ⟨hleader, hcov⟩
  · have halong := (along_audit (u := .blank) (hadm.and hstop)).and (submitted_along _ _ ops)
    obtain ⟨a, h⟩ := charted_run (ρ := ⟨d.totalReplicas, d.leader, Submitted ops, True⟩) hb rfl rfl
      (halong.imp fun u o ⟨⟨hadm, hstop⟩, hasked⟩ =>
        ⟨hadm, hasked, .inl trivial, fun _ ⟨hop, hdown, _, hloud⟩ => hstop ⟨hop, hdown, .inr hloud⟩, fun _ => hstop⟩)
    exact h.oneLog fun _ hc => hc
  · have halong := ((along_audit (u := .blank) (hadm.and hleader)).and hcov).and (submitted_along _ _ ops)
    obtain ⟨a, h⟩ := charted_run (ρ := ⟨d.totalReplicas, d.leader, Submitted ops, False⟩) hb rfl rfl
      (halong.imp fun u o ⟨⟨⟨hadm, hleader⟩, hcov⟩, hasked⟩ =>
        ⟨hadm, hasked, .inr hcov, fun hcare => hleader (hcare.resolve_left id), fun honce => honce.elim⟩)
    exact h.oneLog fun _ hc => hc

/-- **One log through crashes, disk faults and restarts**: if every reply that completes a phase is covered, and the
leader's process is never taken for one that never ran after it let go of anything. -/
theorem one_log {b : Bincode} (hb : b.RoundTrips) (d : Deployment) (ops : List ClusterOp)
    (hadm : Runs.Along (Cluster.step b d) (Cluster.Admits d) .blank ops)
    (hleader : Runs.Along (Cluster.step b d) (fun c o => d.leader = some o.id → ¬ Cluster.Forgets b c o) .blank ops)
    (hcov : Runs.Along (Audit.step b d) (Audit.Covered d) .blank ops) : OneLog ops (Cluster.run b d ops) :=
  Cluster.Guarded.oneLog (.inr ⟨hleader, hcov⟩) hb hadm

/-- replica 0 leads, and counts its own answer and that of replica 1 -/
def countedFirst (command : Command) (kill : Option Kill) : List ClusterOp :=
  [Cluster.bootFirst, ⟨1, .boot none 0 (drawing 1) none⟩, Cluster.submitFirst command, Cluster.selfRequest command,
    ⟨1, .batch (atBoot (.message 0 (.request (firstRequest command)))) [] none⟩,
    ⟨0, .batch (atBoot (.message 0 (.response (Recorder.new.handle (firstRequest command)).2)))
      [atBoot (.message 1 (.response (Recorder.new.handle (firstRequest command)).2))] kill⟩]

/-- it decides, answers its client, is killed, and rejoins from its snapshot -/
def decidedThenBack (command : Command) : List ClusterOp :=
  countedFirst command none ++ [⟨0, .kill⟩, Cluster.bootFirst]

theorem one_log_after_restart :
    let ops := decidedThenBack (.put 2 1 7 9)
    let c := Cluster.run (twoSnapshots (.put 2 1 7 9)) Cluster.ledByFirst ops
    (onDisk (c 0).saves).appliedLog = [.put 2 1 7 9] ∧ OneLog ops c := by
  refine ⟨by decide +kernel, one_log (Bincode.table_roundTrips (by decide)) Cluster.ledByFirst _ ?_ ?_ ?_⟩
  · decide +kernel
  · decide +kernel
  · decide +kernel

/-- **One log where no process returns**, whatever is lost, delayed, repeated or reordered, however the events are
batched, and wherever a process is killed or its disk fails. -/
theorem one_log_crash_stop {b : Bincode} (hb : b.RoundTrips) (d : Deployment) (ops : List ClusterOp)
    (hadm : Runs.Along (Cluster.step b d) (Cluster.Admits d) .blank ops)
    (hstop : Runs.Along (Cluster.step b d) (fun c o => ¬ Cluster.Returns b c o) .blank ops) :
    OneLog ops (Cluster.run b d ops) :=
  Cluster.Guarded.oneLog (.inl hstop) hb hadm

/-- the decision is in place on disk when the process is killed, and its client has no answer -/
theorem one_log_killed_in_write :
    let ops := countedFirst (.put 2 1 7 9) (some (.writing .renamed))
    let c := Cluster.run (twoSnapshots (.put 2 1 7 9)) Cluster.ledByFirst ops
    (onDisk (c 0).saves).appliedLog = [.put 2 1 7 9] ∧ OneLog ops c := by
  refine ⟨by decide +kernel, one_log_crash_stop (Bincode.table_roundTrips (by decide)) Cluster.ledByFirst _ ?_ ?_⟩
  · decide +kernel
  · decide +kernel

end Queso.Net
