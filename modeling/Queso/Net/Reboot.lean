/-
One `H` proposal per slot over the crashes of the leader's process, as long as it does not forget that it tagged one.

A process that restarts from a snapshot rejoins as a learner at the snapshot's frontier, which is not below any slot it
ever tagged: a batch that moves the frontier persists before the tag is released. A process that finds no snapshot is
taken for one that never ran, and tags slot 0 again.

- `tidy_step`: one event makes no second tag for a slot.
- `sealed_step`: every boot, batch, fault and kill of any process keeps the tags of the leader's process apart.
- `one_tag_unless_forgotten`: so does a run in which no boot of the leader's process finds no snapshot after it released
  a tag; `forgotten_tag` is one in which it does.
-/
import Queso.Net.Tags

namespace Queso.Net

/-- `x` was released as the tagged proposal of slot `k` -/
def Tagged (releases : List Release) (k : ℕ) (x : Proposal Command) : Prop :=
  x.priority = H ∧ ∃ e s, Release.sent e ∈ releases ∧ e.payload = .request ⟨k, s, x⟩

/-- tagged proposals are those that were released -/
def Seen (releases : List Release) (k : ℕ) (x : Proposal Command) : Prop := x.priority = H → Tagged releases k x

/-- the tag of a release, with its slot -/
def Release.tag : Release → Option (ℕ × Proposal Command)
  | .sent ⟨_, _, .request req⟩ => if req.proposal.priority = H then some (req.slot, req.proposal) else none
  | _ => none

theorem tagged_iff {releases : List Release} {k : ℕ} {x : Proposal Command} :
    Tagged releases k x ↔ ∃ rel ∈ releases, rel.tag = some (k, x) := by
  constructor
  · rintro ⟨hH, ⟨src, dst, payload⟩, s, he, rfl⟩
    exact ⟨_, he, if_pos hH⟩
  · rintro ⟨rel, hrel, htag⟩
    match rel, htag with
    | .sent ⟨src, dst, .request req⟩, htag =>
      simp only [Release.tag, Option.ite_none_right_eq_some, Option.some.injEq, Prod.mk.injEq] at htag
      obtain ⟨hH, rfl, rfl⟩ := htag
      exact ⟨hH, _, req.reqStep, hrel, rfl⟩

instance (releases : List Release) : Decidable (∀ k x, ¬ Tagged releases k x) :=
  decidable_of_iff (∀ rel ∈ releases, rel.tag = none) <| by
    constructor
    · intro h k x hx
      obtain ⟨rel, hrel, htag⟩ := tagged_iff.1 hx
      exact absurd ((h rel hrel).symm.trans htag) (by simp)
    · intro h rel hrel
      cases htag : rel.tag with
      | none => rfl
      | some kx => exact absurd (tagged_iff.2 ⟨rel, hrel, htag⟩) (h kx.1 kx.2)

theorem lenient_seen (releases : List Release) (k : ℕ) : Lenient (Seen releases k) :=
  fun _ hlt hx => absurd hx hlt.ne

theorem Tagged.mono {releases more : List Release} (hsub : releases ⊆ more) {k : ℕ} {x : Proposal Command}
    (h : Tagged releases k x) : Tagged more k x := by
  obtain ⟨hx, e, s, he, hp⟩ := h
  exact ⟨hx, e, s, hsub he, hp⟩

theorem Seen.mono {releases more : List Release} (hsub : releases ⊆ more) {k : ℕ} {x : Proposal Command}
    (h : Seen releases k x) : Seen more k x := fun hx => (h hx).mono hsub

/-! ## One event makes no second tag -/

/-- the tags of `T` and of the replica's attempt are one for each slot, up to the frontier, and below it when idle -/
structure Tidy (T : ℕ → Proposal Command → Prop) (nd : SmrNode) : Prop where
  single : ∀ k x y, T k x ∨ Own nd k x → T k y ∨ Own nd k y → x = y
  reached : ∀ k x, T k x ∨ Own nd k x → k ≤ nd.durable.nextSlot
  idle : nd.currentAttempt = none → ∀ k x, T k x → k < nd.durable.nextSlot

theorem not_own_idle {nd : SmrNode} (h : nd.currentAttempt = none) {k : ℕ} {x : Proposal Command} : ¬ Own nd k x := by
  rintro ⟨a, ha, -⟩
  exact absurd (h.symm.trans ha) (by simp)

theorem tidy_step {i : NodeId} {leader : Option NodeId} {Ok T T' : ℕ → Proposal Command → Prop} {nd nd' : SmrNode}
    {fx : List (Effect SmrMsg)} (h : Tidy T nd) (ht : Tagging i leader Ok nd nd' fx)
    (hT : ∀ k x, T' k x → T k x ∨ Own nd k x ∨ Own nd' k x) : Tidy T' nd' := by
  -- a tag is an old one, or one for a frontier that nothing was tagged for
  have hnew : ∀ k x, T' k x ∨ Own nd' k x → (T k x ∨ Own nd k x) ∨ Own nd' k x ∧ k = nd'.durable.nextSlot ∧
      (nd.currentAttempt = none ∨ nd.durable.nextSlot < nd'.durable.nextSlot) := by
    have hown : ∀ k x, Own nd' k x → (T k x ∨ Own nd k x) ∨ Own nd' k x ∧ k = nd'.durable.nextSlot ∧
        (nd.currentAttempt = none ∨ nd.durable.nextSlot < nd'.durable.nextSlot) := by
      intro k x hx
      rcases ht.own k x hx with hold | hfresh
      · exact .inl (.inr hold)
      · exact .inr ⟨hx, hfresh⟩
    intro k x hx
    rcases hx with hx | hx
    · rcases hT k x hx with hold | hold | hx
      · exact .inl (.inl hold)
      · exact .inl (.inr hold)
      · exact hown k x hx
    · exact hown k x hx
  have hpast : nd.currentAttempt = none ∨ nd.durable.nextSlot < nd'.durable.nextSlot →
      ∀ k x, T k x ∨ Own nd k x → k < nd'.durable.nextSlot := by
    rintro (hidle | hlt) k x hx
    · rcases hx with hx | hx
      · exact (h.idle hidle k x hx).trans_le ht.frontier
      · exact absurd hx (not_own_idle hidle)
    · exact (h.reached k x hx).trans_lt hlt
  refine ⟨fun k x y hx hy => ?_, fun k x hx => ?_, fun hidle k x hx => ?_⟩
  · rcases hnew k x hx with hx | ⟨hx, hk, hfresh⟩
    · rcases hnew k y hy with hy | ⟨-, hk, hfresh⟩
      · exact h.single k x y hx hy
      · exact absurd hk (hpast hfresh k x hx).ne
    · rcases hnew k y hy with hy | ⟨hy, -, -⟩
      · exact absurd hk (hpast hfresh k y hy).ne
      · exact hx.eq hy
  · rcases hnew k x hx with hx | ⟨-, hk, -⟩
    · exact (h.reached k x hx).trans ht.frontier
    · exact hk.le
  · rcases hnew k x (.inl hx) with hx | ⟨hx, -⟩
    · exact hpast (ht.idle hidle) k x hx
    · exact absurd hx (not_own_idle hidle)

/-! ## One batch -/

/-- a process that knows of allowed proposals and of its own tag -/
structure Tracked (i : NodeId) (leader : Option NodeId) (Ok : ℕ → Proposal Command → Prop) (r : Running) : Prop where
  relays : Relays i leader Ok r.node
  policy : r.shared.policy = .fixed leader
  pending : ∀ e ∈ r.pendingOutbound, Sends Ok (fun _ _ => leader = some i) e.payload

/-- the tags that were released, and those that wait to be -/
def Around (releases : List Release) (r : Running) : ℕ → Proposal Command → Prop :=
  Tagged (releases ++ r.pendingOutbound.map .sent)

section Batch

variable {cfg : Config} {Ok : ℕ → Proposal Command → Prop} {r r' : Running}

theorem absorb_tagging {out : SmrOutcome} {nd' : SmrNode} {sh' : Shared} {fx : List (Effect SmrMsg)}
    (hr : r.absorb cfg out = .ok r') (ho : out = .ok (nd', sh', fx)) :
    r'.node = nd' ∧ r'.shared = sh' ∧ r'.pendingOutbound = r.pendingOutbound ++ sendsOf cfg.id fx := by
  subst ho
  obtain rfl := Except.ok.inj hr
  exact ⟨rfl, rfl, rfl⟩

/-- **What one event does with tags** -/
theorem dispatch_tagging {d : Dispatch} (hOk : ∀ k, Lenient (Ok k)) (h : Tracked cfg.id cfg.leader Ok r)
    (hm : ∀ src payload, d.event = .message src payload → payload.Stays Ok) (hd : r.dispatch cfg d = .ok r') :
    ∃ fx, Tagging cfg.id cfg.leader Ok r.node r'.node fx ∧ r'.shared.policy = .fixed cfg.leader ∧
      r'.pendingOutbound = r.pendingOutbound ++ sendsOf cfg.id fx := by
  unfold Running.dispatch at hd
  dsimp only at hd
  cases he : d.event with
  | message src payload =>
    rw [he] at hd
    dsimp only at hd
    obtain ⟨nd', sh', fx, ho, -⟩ := Running.absorb_ok hd
    obtain ⟨rfl, rfl, hpend⟩ := absorb_tagging hd ho
    exact ⟨fx, onMessage_tagging hOk h.policy h.relays (hm src payload he) ho,
      SmrCluster.called_fixed (.inl ⟨src, payload, ho⟩) h.policy, hpend⟩
  | timer id =>
    rw [he] at hd
    dsimp only at hd
    obtain ⟨nd', sh', fx, ho, -⟩ := Running.absorb_ok hd
    obtain ⟨rfl, rfl, hpend⟩ := absorb_tagging hd ho
    exact ⟨fx, onTimer_tagging hOk h.policy h.relays ho, SmrCluster.called_fixed (.inr (.inl ⟨id, ho⟩)) h.policy, hpend⟩
  | clientSubmit command =>
    rw [he] at hd
    dsimp only at hd
    obtain ⟨nd', sh', fx, ho, -⟩ := Running.absorb_ok hd
    obtain ⟨rfl, rfl, hpend⟩ := absorb_tagging hd ho
    -- a submission touches the queue only
    unfold submit at ho
    split_ifs at ho
    simp only [SmrNode.enqueue, Except.ok.injEq, Prod.mk.injEq] at ho
    obtain ⟨hnode, hshared, rfl⟩ := ho
    refine ⟨_, .of_same ⟨?_, ?_⟩ ?_ ?_ fun j e he => ?_, ?_, hpend⟩
    · rw [← hnode]
      exact h.relays.recorders
    · rw [← hnode]
      exact h.relays.attempt
    · rw [← hnode]
      rfl
    · rw [← hnode]
      rfl
    · split_ifs at he <;> exact absurd he (by simp [sendsOf])
    · rw [← hshared]
      exact h.policy

/-- the process after one event -/
theorem tracked_dispatch {fx : List (Effect SmrMsg)} (h : Tracked cfg.id cfg.leader Ok r)
    (ht : Tagging cfg.id cfg.leader Ok r.node r'.node fx) (hp : r'.shared.policy = .fixed cfg.leader)
    (hpend : r'.pendingOutbound = r.pendingOutbound ++ sendsOf cfg.id fx) : Tracked cfg.id cfg.leader Ok r' := by
  refine ⟨ht.relays, hp, fun e he => ?_⟩
  rw [hpend] at he
  rcases List.mem_append.1 he with he | he
  · exact h.pending e he
  · refine (ht.sends _ e he).imp_right ?_
    rintro ⟨k, s, x, hx, hown | hown⟩
    · exact ⟨k, s, x, hx, h.relays.own_leader hown⟩
    · exact ⟨k, s, x, hx, ht.relays.own_leader hown⟩

/-- the tags that wait to be released after one event -/
theorem around_dispatch {releases : List Release} {fx : List (Effect SmrMsg)}
    (ht : Tagging cfg.id cfg.leader (Seen releases) r.node r'.node fx)
    (hpend : r'.pendingOutbound = r.pendingOutbound ++ sendsOf cfg.id fx) (k : ℕ) (x : Proposal Command)
    (hx : Around releases r' k x) : Around releases r k x ∨ Own r.node k x ∨ Own r'.node k x := by
  obtain ⟨hH, e, s, he, hp⟩ := hx
  rw [hpend, List.map_append, ← List.append_assoc] at he
  rcases List.mem_append.1 he with he | he
  · exact .inl ⟨hH, e, s, he, hp⟩
  · obtain ⟨e', he', hsame⟩ := List.mem_map.1 he
    obtain rfl := Release.sent.inj hsame
    rcases ht.sends _ e' he' with hok | ⟨k', s', x', hx', hown⟩
    · rw [hp] at hok
      exact .inl ((hok hH).mono (List.subset_append_left _ _))
    · rw [hp] at hx'
      obtain ⟨rfl, rfl, rfl⟩ : k = k' ∧ s = s' ∧ x = x' := by simpa using hx'
      exact .inr hown

/-- **What a batch does with tags.** `releases` are those of the leader's process. -/
theorem applyBatch_tags {releases : List Release} {events : List Dispatch}
    (h : Tracked cfg.id cfg.leader (Seen releases) r)
    (hm : ∀ d ∈ events, ∀ src payload, d.event = .message src payload → payload.Stays (Seen releases))
    (hr : r.applyBatch cfg events = .ok r') :
    Tracked cfg.id cfg.leader (Seen releases) r' ∧
      (Tidy (Around releases r) r.node → Tidy (Around releases r') r'.node) := by
  induction events generalizing r with
  | nil =>
    obtain rfl := Except.ok.inj hr
    exact ⟨h, id⟩
  | cons d ds ih =>
    rw [Running.applyBatch] at hr
    cases hd : r.dispatch cfg d with
    | error e => rw [hd] at hr; exact absurd hr (by simp)
    | ok r₁ =>
      rw [hd] at hr
      obtain ⟨fx, ht, hp, hpend⟩ := dispatch_tagging (lenient_seen releases) h (hm d List.mem_cons_self) hd
      obtain ⟨htracked, htidy⟩ :=
        ih (tracked_dispatch h ht hp hpend) (fun d' hd' => hm d' (List.mem_cons_of_mem _ hd')) hr
      exact ⟨htracked, fun hold => htidy (tidy_step hold ht (around_dispatch ht hpend))⟩

end Batch

/-! ## The cluster -/

/-- how a cluster is deployed: all its processes know of one leader -/
structure Deployment where
  totalReplicas : ℕ
  leader : Option NodeId
  peers : NodeId → List NodeId
  debugAssertions : Bool

def Deployment.config (d : Deployment) (i : NodeId) : Config :=
  ⟨i, d.totalReplicas, d.leader, d.peers i, d.debugAssertions⟩

/-- a process for each replica; the network is what they released -/
abbrev Cluster := NodeId → Process

/-- a step of the process of one replica -/
structure ClusterOp where
  id : NodeId
  op : ProcOp

/-- the events that a step hands to the replica -/
def ProcOp.events : ProcOp → List Dispatch
  | .batch first ready _ => Process.batchOf first ready
  | _ => []

def ProcOp.boots : ProcOp → Bool
  | .boot _ _ _ _ => true
  | _ => false

def findsNothing (b : Bincode) (disk : Disk) : Bool :=
  match load b disk with
  | .ok none => true
  | _ => false

namespace Cluster

def blank : Cluster := fun _ => .blank

def step (b : Bincode) (d : Deployment) (c : Cluster) (o : ClusterOp) : Cluster :=
  Function.update c o.id ((c o.id).step b (d.config o.id) o.op)

abbrev run (b : Bincode) (d : Deployment) (ops : List ClusterOp) : Cluster := Runs.run (step b d) blank ops

/-- whatever a replica is told was released to it, however long ago and however often it was told -/
def Delivers (c : Cluster) (o : ClusterOp) : Prop :=
  ∀ disp ∈ o.op.events, ∀ src payload, disp.event = .message src payload →
    .sent ⟨src, o.id, payload⟩ ∈ (c src).released

/-- the step boots the process of replica `l`, and finds no snapshot -/
def BootsCold (b : Bincode) (l : NodeId) (c : Cluster) (o : ClusterOp) : Prop :=
  o.id = l ∧ o.op.boots = true ∧ (c l).running.isNone = true ∧ findsNothing b (c l).disk = true

instance (b : Bincode) (l : NodeId) (c : Cluster) (o : ClusterOp) : Decidable (BootsCold b l c o) := by
  unfold BootsCold; infer_instance

/-- the process of replica `l` is not taken for one that never ran after it released a tag -/
def Remembers (b : Bincode) (l : NodeId) (c : Cluster) (o : ClusterOp) : Prop :=
  BootsCold b l c o → ∀ k x, ¬ Tagged (c l).released k x

/-- whatever the event tells replica `i` was released to it -/
def wasReleased (c : Cluster) (i : NodeId) : Event → Bool
  | .message src payload => decide (.sent ⟨src, i, payload⟩ ∈ (c src).released)
  | _ => true

instance (c : Cluster) (o : ClusterOp) : Decidable (Delivers c o) :=
  decidable_of_iff (∀ disp ∈ o.op.events, wasReleased c o.id disp.event = true) <| by
    unfold Delivers
    refine forall₂_congr fun disp _ => ?_
    cases disp.event <;> simp [wasReleased]

instance (b : Bincode) (l : NodeId) (c : Cluster) (o : ClusterOp) : Decidable (Remembers b l c o) := by
  unfold Remembers; infer_instance

/-- the tags of the leader's process are one for each slot, and all that anybody knows of -/
structure Sealed (b : Bincode) (d : Deployment) (l : NodeId) (c : Cluster) : Prop where
  sound : ∀ i, Sound b (c i)
  released : ∀ i e, .sent e ∈ (c i).released → e.payload.Stays (Seen (c l).released)
  disks : ∀ i k r, (onDisk (c i).saves).recorders.lookup k = some r → r.isr.Stays (Seen (c l).released k)
  running : ∀ i r, (c i).running = some r → Tracked i d.leader (Seen (c l).released) r
  single : ∀ k x y, Tagged (c l).released k x → Tagged (c l).released k y → x = y
  reached : ∀ k x, Tagged (c l).released k x → k ≤ (onDisk (c l).saves).nextSlot
  tidy : ∀ r, (c l).running = some r → Tidy (Tagged (c l).released) r.node

/-- a cluster in which one process took a step -/
theorem Sealed.update {b : Bincode} {d : Deployment} {l : NodeId} {c : Cluster} (h : Sealed b d l c)
    (hl : d.leader = some l) {i : NodeId} {p : Process} (hsound : Sound b p) (hmore : (c i).released ⊆ p.released)
    (hsent : ∀ e, .sent e ∈ p.released → .sent e ∈ (c i).released ∨
      Sends (Seen (c l).released) (fun _ _ => d.leader = some i) e.payload)
    (hdisk : ∀ k r, (onDisk p.saves).recorders.lookup k = some r → r.isr.Stays (Seen (c l).released k))
    (hrun : ∀ r, p.running = some r → Tracked i d.leader (Seen (c l).released) r)
    (hsingle : i = l → ∀ k x y, Tagged p.released k x → Tagged p.released k y → x = y)
    (hreached : i = l → ∀ k x, Tagged p.released k x → k ≤ (onDisk p.saves).nextSlot)
    (htidy : i = l → ∀ r, p.running = some r → Tidy (Tagged p.released) r.node) :
    Sealed b d l (Function.update c i p) := by
  -- what was released before is still known
  have hknown : ∀ k x, Seen (c l).released k x → Seen (Function.update c i p l).released k x := by
    intro k x
    by_cases hi : l = i
    · subst hi
      rw [Function.update_self]
      exact Seen.mono hmore
    · rw [Function.update_of_ne hi]
      exact id
  have htracked : ∀ {j r}, Tracked j d.leader (Seen (c l).released) r →
      Tracked j d.leader (Seen (Function.update c i p l).released) r := fun ht =>
    ⟨ht.relays.mono hknown, ht.policy, fun e he => (ht.pending e he).imp_left fun hs => hs.mono hknown⟩
  refine ⟨fun j => ?_, fun j e he => ?_, fun j k r hr => ?_, fun j r hr => ?_, ?_, ?_, ?_⟩
  · by_cases hj : j = i
    · subst hj
      rw [Function.update_self]
      exact hsound
    · rw [Function.update_of_ne hj]
      exact h.sound j
  · by_cases hj : j = i
    · subst hj
      rw [Function.update_self] at he
      rcases hsent e he with hold | hs | ⟨k, s, x, hx, hlead⟩
      · exact (h.released j e hold).mono hknown
      · exact hs.mono hknown
      · -- the leader's own tag is one that it released
        obtain rfl : l = j := Option.some.inj (hl.symm.trans hlead)
        rw [hx, Function.update_self]
        exact fun hH => ⟨hH, e, s, he, hx⟩
    · rw [Function.update_of_ne hj] at he
      exact (h.released j e he).mono hknown
  · by_cases hj : j = i
    · subst hj
      rw [Function.update_self] at hr
      exact (hdisk k r hr).mono (hknown k)
    · rw [Function.update_of_ne hj] at hr
      exact (h.disks j k r hr).mono (hknown k)
  · by_cases hj : j = i
    · subst hj
      rw [Function.update_self] at hr
      exact htracked (hrun r hr)
    · rw [Function.update_of_ne hj] at hr
      exact htracked (h.running j r hr)
  all_goals
    by_cases hi : l = i
  · subst hi
    rw [Function.update_self]
    exact hsingle rfl
  · rw [Function.update_of_ne hi]
    exact h.single
  · subst hi
    rw [Function.update_self]
    exact hreached rfl
  · rw [Function.update_of_ne hi]
    exact h.reached
  · subst hi
    rw [Function.update_self]
    exact htidy rfl
  · rw [Function.update_of_ne hi]
    exact h.tidy

end Cluster

/-! ## A step of a process -/

/-- a process that had let go of `released` lets go of what waits in `r` too, or of the first of it, and goes on from
there or is killed -/
structure LetsGo (released : List Release) (p' : Process) (r : Running) : Prop where
  released : ∃ more, p'.released = released ++ more ∧ ∀ e, .sent e ∈ more → e ∈ r.pendingOutbound
  running : ∀ r', p'.running = some r' → r'.node = r.node ∧ r'.shared = r.shared ∧ r'.pendingOutbound = []

/-- all that a step of a process does outside its disk -/
inductive Stepped (b : Bincode) (cfg : Config) (p p' : Process) (op : ProcOp) : Prop where
  | quiet (hreleased : p'.released = p.released) (hrun : ∀ r, p'.running = some r → p.running = some r)
  | cold {fault elapsed rng kill} (hop : op = .boot fault elapsed rng kill) (hdown : p.running = none)
      (hload : load b p.disk = .ok none) (hreleased : p'.released = p.released)
      (hrun : p'.running = some (.boot cfg fault .default 0))
  | rejoins {fault durable maxTick elapsed rng} {r₀ r : Running} (hload : load b p.disk = .ok (some (durable, maxTick)))
      (hboot : r₀ = (Running.boot cfg fault durable maxTick).tickNow elapsed)
      (hcall : r₀.absorb cfg (r₀.node.onRestart (r₀.ctx cfg rng) r₀.shared) = .ok r) (hgo : LetsGo p.released p' r)
  | batch {first ready kill} {r₀ r : Running} (hop : op = .batch first ready kill) (hup : p.running = some r₀)
      (hbatch : r₀.applyBatch cfg (Process.batchOf first ready) = .ok r)
      (hsaves : (∃ tick, p'.saves = p.saves ++ [⟨r.node.durable, tick, .done⟩]) ∨
        p'.saves = p.saves ∧ ((Process.batchOf first ready).any fun d => d.event.mayMutateDurable) = false)
      (hgo : LetsGo p.released p' r)

theorem letsGo_release {p p' : Process} {r r' : Running} {released releases : List Release} {kill : Option ℕ}
    (hp : p' = p.release r' releases kill) (hbefore : p.released = released)
    (hrel : ∀ e, .sent e ∈ releases → e ∈ r.pendingOutbound)
    (hrun : r'.node = r.node ∧ r'.shared = r.shared ∧ r'.pendingOutbound = []) : LetsGo released p' r := by
  subst hp hbefore
  cases kill with
  | none =>
    refine ⟨⟨releases, rfl, hrel⟩, fun r'' hr => ?_⟩
    obtain rfl := Option.some.inj hr
    exact hrun
  | some n =>
    exact ⟨⟨_, rfl, fun e he => hrel e (List.mem_of_mem_take he)⟩, fun r'' hr => absurd hr (by simp [Process.release])⟩

theorem mem_flushed {cfg : Config} {r : Running} {e : Envelope SmrMsg} (h : .sent e ∈ r.flushed cfg) :
    e ∈ r.pendingOutbound := by
  obtain ⟨e', he', hsame⟩ := List.mem_map.1 h
  obtain rfl := Release.sent.inj hsame
  exact (List.mem_filter.1 he').1

theorem mem_answers {r : Running} {e : Envelope SmrMsg} : .sent e ∉ r.answers := by
  intro h
  obtain ⟨id, -, hid⟩ := List.mem_filterMap.1 h
  obtain ⟨record, -, hsame⟩ := Option.map_eq_some_iff.1 hid
  exact absurd hsame (by simp)

theorem step_stepped (b : Bincode) (cfg : Config) (p : Process) (op : ProcOp) :
    Stepped b cfg p (p.step b cfg op) op := by
  cases op with
  | kill => exact .quiet rfl fun r hr => absurd hr (by simp [Process.step])
  | boot fault elapsed rng kill =>
    unfold Process.step
    dsimp only
    split_ifs with hup
    · exact .quiet rfl fun _ hr => hr
    have hdown : p.running = none := Option.not_isSome_iff_eq_none.1 hup
    unfold Process.bootFrom
    cases hload : load b p.disk with
    | error e => exact .quiet rfl fun _ hr => hr
    | ok found =>
      cases found with
      | none => exact .cold rfl hdown hload rfl rfl
      | some snapshot =>
        obtain ⟨durable, maxTick⟩ := snapshot
        dsimp only
        split
        · exact .quiet rfl fun _ hr => hr
        · rename_i r hr
          exact .rejoins hload rfl hr (letsGo_release rfl rfl (fun e he => mem_flushed he) ⟨rfl, rfl, rfl⟩)
  | batch first ready kill =>
    unfold Process.step
    cases hup : p.running with
    | none => exact .quiet rfl fun r hr => absurd (hup.symm.trans hr) (by simp)
    | some r₀ =>
      dsimp only
      unfold Process.runBatch
      cases hbatch : r₀.applyBatch cfg (Process.batchOf first ready) with
      | error e => exact .quiet rfl fun r hr => absurd hr (by simp)
      | ok r =>
        have hsent : ∀ {r' : Running}, r'.pendingOutbound = r.pendingOutbound →
            ∀ e, .sent e ∈ r'.flushed cfg ++ r'.answers → e ∈ r.pendingOutbound := by
          intro r' hsame e he
          rcases List.mem_append.1 he with he | he
          · exact hsame ▸ mem_flushed he
          · exact absurd he mem_answers
        dsimp only
        split_ifs with hk hdone
        · exact .quiet rfl fun r hr => absurd hr (by simp)
        · unfold Process.persisted at hdone ⊢
          split_ifs at hdone ⊢ with hmsg
          · refine .batch rfl hup hbatch (.inl ⟨r.now, ?_⟩) (letsGo_release rfl rfl ?_ ?_)
            · have hend := of_decide_eq_true hdone
              cases kill.bind Kill.release <;> exact congrArg (fun e => p.saves ++ [⟨r.node.durable, r.now, e⟩]) hend
            · exact hsent rfl
            · exact ⟨rfl, rfl, rfl⟩
          · refine .batch rfl hup hbatch (.inr ⟨?_, Bool.eq_false_iff.2 hmsg⟩) (letsGo_release rfl rfl ?_ ?_)
            · cases kill.bind Kill.release <;> rfl
            · exact hsent rfl
            · exact ⟨rfl, rfl, rfl⟩
        · unfold Process.persisted at hdone ⊢
          split_ifs at hdone ⊢ with hmsg
          · exact .quiet rfl fun r hr => absurd hr (by simp)
          · exact absurd rfl hdone

theorem onDisk_snoc (saves : List Save) (s : Save) :
    onDisk (saves ++ [s]) = if s.ending.landed then s.durable else onDisk saves := by
  unfold onDisk
  rw [lastLanded_snoc]
  split_ifs <;> rfl

theorem Tidy.mono {T T' : ℕ → Proposal Command → Prop} {nd : SmrNode} (h : Tidy T nd) (hle : ∀ k x, T' k x → T k x) :
    Tidy T' nd :=
  ⟨fun k x y hx hy => h.single k x y (hx.imp_left (hle k x)) (hy.imp_left (hle k y)),
    fun k x hx => h.reached k x (hx.imp_left (hle k x)), fun hidle k x hx => h.idle hidle k x (hle k x hx)⟩

/-- the frontier never goes back on disk -/
theorem Grows.nextSlot {d d' : Durable} (h : Grows d d') (hd : Lawful d) (hd' : Lawful d') :
    d.nextSlot ≤ d'.nextSlot := by
  rw [hd.frontier, hd'.frontier]
  exact h.log.length_le

namespace Cluster

section Step

variable {b : Bincode} {d : Deployment} {l : NodeId} {c : Cluster}

/-- a batch of a process of the cluster -/
theorem Sealed.batch (h : Sealed b d l c) {o : ClusterOp} (hdel : Delivers c o) {first : Dispatch}
    {ready : List Dispatch} {kill : Option Kill} (hop : o.op = .batch first ready kill) {r₀ r : Running}
    (hup : (c o.id).running = some r₀)
    (hbatch : r₀.applyBatch (d.config o.id) (Process.batchOf first ready) = .ok r) :
    Tracked o.id d.leader (Seen (c l).released) r ∧
      (o.id = l → Tidy (Around (c l).released r) r.node) := by
  have hm : ∀ disp ∈ Process.batchOf first ready, ∀ src payload, disp.event = .message src payload →
      payload.Stays (Seen (c l).released) := by
    intro disp hdisp src payload he
    exact h.released src _ (hdel disp (by rw [hop]; exact hdisp) src payload he)
  have htracked : Tracked (d.config o.id).id (d.config o.id).leader (Seen (c l).released) r₀ := h.running o.id r₀ hup
  obtain ⟨htracked', htidy⟩ := applyBatch_tags htracked hm hbatch
  refine ⟨htracked', fun hi => htidy ?_⟩
  -- nothing waited to be released before the batch
  have hnone := ((h.sound o.id).running r₀ hup).2.2
  refine (h.tidy r₀ (hi ▸ hup)).mono fun k x hx => ?_
  unfold Around at hx
  rwa [hnone, List.map_nil, List.append_nil] at hx

/-- what the disk of a process knows after its step -/
theorem Sealed.disk (h : Sealed b d l c) {o : ClusterOp} (hdel : Delivers c o) (k : ℕ) (r : Recorder Command)
    (hr : (onDisk ((c o.id).step b (d.config o.id) o.op).saves).recorders.lookup k = some r) :
    r.isr.Stays (Seen (c l).released k) := by
  rcases step_saves (d.config o.id) b (c o.id) o.op with hsame | ⟨first, ready, kill, r₀, r', ending, hop, hup, hbatch,
    hsaves, -⟩
  · rw [hsame] at hr
    exact h.disks o.id k r hr
  · rw [hsaves, onDisk_snoc] at hr
    split_ifs at hr
    · exact (h.batch hdel hop hup hbatch).1.relays.recorders k r hr
    · exact h.disks o.id k r hr

/-- **Every step of a process keeps the tags apart**, unless it forgets that it tagged -/
theorem sealed_step (hb : b.RoundTrips) (hl : d.leader = some l) (h : Sealed b d l c) {o : ClusterOp}
    (hdel : Delivers c o) (hrem : Remembers b l c o) : Sealed b d l (step b d c o) := by
  obtain ⟨hsound, hgrows⟩ := sound_step (d.config o.id) hb (h.sound o.id) o.op
  have hfrontier := hgrows.nextSlot (h.sound o.id).lawful hsound.lawful
  have hdisk := h.disk hdel
  have hsaves := step_stepped b (d.config o.id) (c o.id) o.op
  unfold step
  generalize (c o.id).step b (d.config o.id) o.op = p' at hsound hgrows hfrontier hdisk hsaves ⊢
  -- what a process that released nothing new keeps
  have hold : p'.released = (c o.id).released → o.id = l →
      (∀ k x y, Tagged p'.released k x → Tagged p'.released k y → x = y) ∧
        ∀ k x, Tagged p'.released k x → k ≤ (onDisk p'.saves).nextSlot := by
    intro hsame hi
    rw [hsame, hi]
    exact ⟨h.single, fun k x hx => (h.reached k x hx).trans (hi ▸ hfrontier)⟩
  cases hsaves with
  | quiet hreleased hrun =>
    refine h.update hl hsound (by rw [hreleased]; exact List.Subset.refl _)
      (fun e he => .inl (by rwa [← hreleased])) hdisk (fun r hr => h.running o.id r (hrun r hr))
      (fun hi => (hold hreleased hi).1) (fun hi => (hold hreleased hi).2) fun hi r hr => ?_
    rw [hreleased, hi]
    exact h.tidy r (hi ▸ hrun r hr)
  | @cold fault elapsed rng kill hop hdown hload hreleased hrun =>
    refine h.update hl hsound (by rw [hreleased]; exact List.Subset.refl _)
      (fun e he => .inl (by rwa [← hreleased])) hdisk (fun r hr => ?_)
      (fun hi => (hold hreleased hi).1) (fun hi => (hold hreleased hi).2) fun hi r hr => ?_
    · obtain rfl := Option.some.inj (hrun.symm.trans hr)
      exact ⟨⟨fun k r hr => absurd hr (by simp [Running.boot, Durable.default]),
        fun a ha => absurd ha (by simp [Running.boot, SmrNode.new])⟩, rfl,
        fun e he => absurd he (by simp [Running.boot])⟩
    · -- the leader's process boots cold: it released no tag
      obtain rfl := Option.some.inj (hrun.symm.trans hr)
      have hfinds : findsNothing b (c o.id).disk = true := by
        unfold findsNothing
        rw [hload]
      have hno := hrem ⟨hi, by rw [hop]; rfl, by rw [← hi, hdown]; rfl, hi ▸ hfinds⟩
      have hnone : ∀ k x, ¬ (Tagged p'.released k x ∨ Own (Running.boot (d.config o.id) fault .default 0).node k x) := by
        rintro k x (hx | hx)
        · rw [hreleased, hi] at hx
          exact hno k x hx
        · exact not_own_idle rfl hx
      exact ⟨fun k x _ hx => absurd hx (hnone k x), fun k x hx => absurd hx (hnone k x),
        fun _ k x hx => absurd (.inl hx) (hnone k x)⟩
  | @rejoins fault durable maxTick elapsed rng r₀ r hload hboot hcall hgo =>
    obtain ⟨nd', sh', fx, ho, -⟩ := Running.absorb_ok hcall
    obtain ⟨rfl, rfl, hpend⟩ := absorb_tagging hcall ho
    have hfound : onDisk (c o.id).saves = durable := by
      have hlast : lastLanded (c o.id).saves = some (durable, maxTick) :=
        Except.ok.inj ((h.sound o.id).loads.symm.trans hload)
      rw [onDisk, hlast]
      rfl
    have hdur₀ : r₀.node.durable = durable := by rw [hboot]; rfl
    have hpend₀ : r₀.pendingOutbound = [] := by rw [hboot]; rfl
    have hpol₀ : r₀.shared.policy = .fixed d.leader := by rw [hboot]; rfl
    have hpol : r.shared.policy = .fixed d.leader := SmrCluster.called_fixed (.inr (.inr ho)) hpol₀
    have hst := SmrNode.onRestart_moves ho
    have hrec : ∀ k rec, r₀.node.durable.recorders.lookup k = some rec → rec.isr.Stays (Seen (c l).released k) := by
      rw [hdur₀, ← hfound]
      exact h.disks o.id
    have hhint : (none : Option NodeId) = none ∨ none = d.leader := .inl rfl
    obtain ⟨hrel, hdur, hs, hown⟩ := started_relays (lenient_seen _) hst hrec hhint
    have hmine : ∀ k x, ¬ Own r.node k x := fun k x hx => absurd rfl (hown k x hx).2
    -- what a learner sends is not its own
    have hstays : ∀ e ∈ r.pendingOutbound, e.payload.Stays (Seen (c l).released) := by
      intro e he
      rw [hpend, hpend₀, List.nil_append] at he
      rcases hs _ e he with hok | ⟨k, s, x, -, hx⟩
      · exact hok
      · exact absurd hx (hmine k x)
    obtain ⟨more, hmore, hin⟩ := hgo.released
    have htags : o.id = l → ∀ k x, Tagged p'.released k x → Tagged (c l).released k x := by
      rintro hi k x ⟨hH, e, s, he, hp⟩
      rw [hmore] at he
      rcases List.mem_append.1 he with he | he
      · exact ⟨hH, e, s, hi ▸ he, hp⟩
      · have hok := hstays e (hin e he)
        rw [hp] at hok
        exact hok hH
    refine h.update hl hsound (by rw [hmore]; exact List.subset_append_left _ _) (fun e he => ?_) hdisk
      (fun r' hr => ?_) (fun hi k x y hx hy => h.single k x y (htags hi k x hx) (htags hi k y hy))
      (fun hi k x hx => (h.reached k x (htags hi k x hx)).trans (hi ▸ hfrontier)) fun hi r' hr => ?_
    · rw [hmore] at he
      rcases List.mem_append.1 he with he | he
      · exact .inl he
      · exact .inr (.inl (hstays e (hin e he)))
    · obtain ⟨hnode, hshared, hnone⟩ := hgo.running r' hr
      exact ⟨hnode ▸ hrel, hshared ▸ hpol, fun e he => absurd (hnone ▸ he) List.not_mem_nil⟩
    · obtain ⟨hnode, -, -⟩ := hgo.running r' hr
      obtain ⟨delay, ⟨counted, hb'⟩, -⟩ := hst.drives
      rw [hnode]
      refine ⟨fun k x y hx hy => ?_, fun k x hx => ?_, fun hidle => absurd (hidle.symm.trans hb') (by simp)⟩
      · exact h.single k x y (htags hi k x (hx.resolve_right (hmine k x)))
          (htags hi k y (hy.resolve_right (hmine k y)))
      · have hk := h.reached k x (htags hi k x (hx.resolve_right (hmine k x)))
        rw [← hi, hfound, ← hdur₀] at hk
        exact hk.trans (congrArg Durable.nextSlot hdur).ge
  | @batch first ready kill r₀ r hop hup hbatch hsaves hgo =>
    obtain ⟨htracked, htidy⟩ := h.batch hdel hop hup hbatch
    -- what was let go of is let go of with the frontier on disk
    have hdur : r.node.durable = onDisk p'.saves := by
      rcases hsaves with ⟨tick, hsaves⟩ | ⟨hsaves, hmsg⟩
      · rw [hsaves, onDisk_snoc]
        rfl
      · obtain ⟨hready, hsame, -⟩ := (h.sound o.id).running r₀ hup
        rw [hsaves, ← hsame]
        exact (applyBatch_ready hready hbatch).2.2 hmsg
    obtain ⟨more, hmore, hin⟩ := hgo.released
    have htags : o.id = l → ∀ k x, Tagged p'.released k x → Around (c l).released r k x := by
      rintro hi k x ⟨hH, e, s, he, hp⟩
      refine ⟨hH, e, s, ?_, hp⟩
      rw [hmore] at he
      rcases List.mem_append.1 he with he | he
      · exact List.mem_append_left _ (hi ▸ he)
      · exact List.mem_append_right _ (List.mem_map_of_mem (hin e he))
    refine h.update hl hsound (by rw [hmore]; exact List.subset_append_left _ _) (fun e he => ?_) hdisk
      (fun r' hr => ?_) (fun hi k x y hx hy => (htidy hi).single k x y (.inl (htags hi k x hx)) (.inl (htags hi k y hy)))
      (fun hi k x hx => hdur ▸ (htidy hi).reached k x (.inl (htags hi k x hx))) fun hi r' hr => ?_
    · rw [hmore] at he
      rcases List.mem_append.1 he with he | he
      · exact .inl he
      · exact .inr (htracked.pending e (hin e he))
    · obtain ⟨hnode, hshared, hnone⟩ := hgo.running r' hr
      exact ⟨hnode ▸ htracked.relays, hshared ▸ htracked.policy, fun e he => absurd (hnone ▸ he) List.not_mem_nil⟩
    · obtain ⟨hnode, -, -⟩ := hgo.running r' hr
      rw [hnode]
      exact (htidy hi).mono (htags hi)

theorem sealed_blank (b : Bincode) (d : Deployment) (l : NodeId) : Sealed b d l blank where
  sound := fun _ => sound_blank b
  released := fun i e he => absurd he (by simp [blank, Process.blank])
  disks := fun i k r hr => absurd hr (by simp [blank, Process.blank, onDisk, lastLanded, Durable.default])
  running := fun i r hr => absurd hr (by simp [blank, Process.blank])
  single := by
    rintro k x y ⟨-, e, s, he, -⟩
    exact absurd he (by simp [blank, Process.blank])
  reached := by
    rintro k x ⟨-, e, s, he, -⟩
    exact absurd he (by simp [blank, Process.blank])
  tidy := fun r hr => absurd hr (by simp [blank, Process.blank])

end Step

/-- all tagged requests that were released for one slot carry one proposal -/
def OneTag (releases : List Release) : Prop :=
  ∀ k x y, Tagged releases k x → Tagged releases k y → x = y

/-- **One `H` proposal per slot over every crash of the leader's process**, and of all the others, if no boot of it finds
no snapshot after it released one -/
theorem one_tag_unless_forgotten {b : Bincode} (hb : b.RoundTrips) (d : Deployment) {l : NodeId} (hl : d.leader = some l)
    (ops : List ClusterOp) (hdel : Runs.Along (step b d) Delivers blank ops)
    (hrem : Runs.Along (step b d) (Remembers b l) blank ops) : OneTag (run b d ops l).released :=
  (Runs.run_invariant (I := Sealed b d l) (fun _ _ hs ho => sealed_step hb hl hs ho.1 ho.2) (sealed_blank b d l)
    (hdel.and hrem)).single

/-! ## A process that forgets, and one that does not -/

/-- three replicas, led by the first -/
def ledByFirst : Deployment := ⟨3, some 0, fun i => (List.range 3).filter (· ≠ i), false⟩

def bootFirst : ClusterOp := ⟨0, .boot none 0 (drawing 1) none⟩

/-- a client submits to an idle replica 0, which proposes at once -/
def submitFirst (command : Command) : ClusterOp :=
  ⟨0, .batch (atBoot (.clientSubmit command)) [atBoot (.timer .kickoff)] none⟩

/-- the request that replica 0 sends itself reaches it -/
def selfRequest (command : Command) : ClusterOp := ⟨0, .batch (atBoot (.message 0 (.request (firstRequest command)))) [] none⟩

/-- replica 0 is killed and restarts between two operations, with its first request on disk -/
def remembering : List ClusterOp :=
  [bootFirst, submitFirst (.put 2 1 7 9), selfRequest (.put 2 1 7 9), ⟨0, .kill⟩, bootFirst, submitFirst (.put 3 1 7 8)]

theorem one_tag_after_restart : OneTag (run (twoSnapshots (.put 2 1 7 9)) ledByFirst remembering 0).released := by
  refine one_tag_unless_forgotten (Bincode.table_roundTrips (by decide)) ledByFirst rfl remembering ?_ ?_
  · decide +kernel
  · decide +kernel

/-- the same with the crash before the first snapshot -/
def forgetting : List ClusterOp := [bootFirst, submitFirst (.put 2 1 7 9), ⟨0, .kill⟩, bootFirst, submitFirst (.put 3 1 7 8)]

/-- **A leader that crashed before its first snapshot tags slot 0 again**: its first requests were released by a batch
without a message, which persists nothing, so its reboot is taken for a first boot. -/
theorem forgotten_tag : ¬ ∀ ops, Runs.Along (step (.table []) ledByFirst) Delivers blank ops →
    OneTag (run (.table []) ledByFirst ops 0).released := by
  intro h
  have hdel : Runs.Along (step (.table []) ledByFirst) Delivers blank forgetting := by decide +kernel
  have hone := h forgetting hdel 0 ⟨.put 2 1 7 9, H, 0⟩ ⟨.put 3 1 7 8, H, 0⟩
    (tagged_iff.2 ⟨.sent ⟨0, 1, .request ⟨0, FIRST_ROUND_STEP, ⟨.put 2 1 7 9, H, 0⟩⟩⟩, by decide +kernel, rfl⟩)
    (tagged_iff.2 ⟨.sent ⟨0, 1, .request ⟨0, FIRST_ROUND_STEP, ⟨.put 3 1 7 8, H, 0⟩⟩⟩, by decide +kernel, rfl⟩)
  exact absurd hone (by decide)

end Cluster

end Queso.Net
