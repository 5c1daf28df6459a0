/-
The cluster on the simulation kernel, and the calls of the driver that runs it.

A driver submits operations, lets the kernel run for some ticks, and crashes, restarts and slows replicas. A call that has
not returned within `fuel` turns of the kernel is `none`; a panic ends the program, and no later call happens. A tuned
cluster runs a tick at a time, so that the scheduler can be told the leader of the open epoch in between.

`drive_refines`: a program that has returned is a run of the cluster in the asynchronous world, in which no message or
timer is copied and no timer is lost, so what is proved of those runs holds of every program. Assumes the clock is not at
its end.
-/
import Queso.Sim.Refinement
import Queso.Smr.Custody

namespace Queso

open Sim

/-- what the scheduler decides and the generator yields -/
structure Chance where
  decide : Sim.Envelope SmrMsg → SchedulerCtx → Decision
  rng : ℕ → NodeId → Draw

/-- replicas on the kernel; every message counts as of size one -/
def Chance.harness (ch : Chance) : Harness SmrNode Shared SmrMsg (NodeId → Draw) where
  behaviour := SmrNode.behaviour
  size := fun _ => 1
  decide := ch.decide
  rng := ch.rng

structure SmrCluster where
  kernel : Kernel SmrNode Shared SmrMsg
  live : Finset NodeId
  /-- the leader that the kernel was last told -/
  kernelLeader : Option NodeId

inductive DriverOp where
  | submit (replica : NodeId) (command : Command)
  | runFor (ticks : ℕ)
  | crash (id : NodeId)
  | restart (id : NodeId)
  | setSlow (id : NodeId) (multiplier : ℕ)
  | clearSlow (id : NodeId)

namespace SmrCluster

def build (n : ℕ) (policy : LeaderPolicy) (kernelLeaderHint : Option NodeId) : SmrCluster where
  kernel :=
    { (Kernel.new ⟨∅, 0, policy, []⟩ : Kernel SmrNode Shared SmrMsg).setLeader kernelLeaderHint with
      nodes := fun i => if i < n then some (SmrNode.new n) else none }
  live := Finset.range n
  kernelLeader := kernelLeaderHint

/-- `new` and `new_with_leader`, or `new_with_tuning` -/
def ofSetup : Smr.Setup → SmrCluster
  | .leader n leader => build n (.fixed leader) leader
  | .tuning n epochLen baseDelay =>
    let tuner := EpochTuner.new 0 ((List.range n).map (· + 1)) epochLen baseDelay
    build (n + 1) (.tuned tuner) (some tuner.leader)

def halt (c : SmrCluster) (e : Panic) : SmrCluster := { c with kernel := { c.kernel with halted := some (.panic e) } }

/-- strictly after every completion so far -/
def nextInvokedAt (c : SmrCluster) : ℕ :=
  match (c.kernel.shared.results.entries.filterMap fun e => e.2.completedAt).max? with
  | some t => max c.kernel.now (advance t 1)
  | none => c.kernel.now

def submit (replica : NodeId) (command : Command) (c : SmrCluster) : SmrCluster :=
  if command.client = CATCH_UP_CLIENT then c.halt .reservedClient
  else match c.kernel.nodes replica with
    | none => c.halt .unknownReplica
    | some nd =>
      let sh := c.kernel.shared
      let id := sh.nextOpId
      let (nd, shouldKick) := nd.enqueue id command
      let kernel :=
        { c.kernel with
          nodes := Function.update c.kernel.nodes replica (some nd)
          shared :=
            { sh with
              results := sh.results.insert id ⟨replica, command, c.nextInvokedAt, none, none, none⟩
              nextOpId := id + 1
              history := sh.history ++ [.invoked id command] } }
      { c with kernel := if shouldKick then kernel.scheduleTimer replica 0 .kickoff else kernel }

/-- tell the kernel the tuner's current leader, if it has moved -/
def syncKernelLeader (c : SmrCluster) : SmrCluster :=
  if c.kernel.halted.isSome then c
  else match c.kernel.shared.policy with
    | .fixed _ => c
    | .tuned tuner =>
      if some tuner.leader = c.kernelLeader then c
      else { c with kernelLeader := some tuner.leader, kernel := c.kernel.setLeader (some tuner.leader) }

def runUntil (ch : Chance) (fuel limit : ℕ) (c : SmrCluster) : Option SmrCluster :=
  (c.kernel.runUntil ch.harness limit fuel).map fun k => { c with kernel := k }

/-- one tick of a tuned cluster -/
def runTick (ch : Chance) (fuel start : ℕ) (c : SmrCluster) (tick : ℕ) : Option SmrCluster :=
  c.syncKernelLeader.runUntil ch fuel (advance start tick)

def runFor (ch : Chance) (fuel ticks : ℕ) (c : SmrCluster) : Option SmrCluster :=
  match c.kernel.shared.policy with
  | .fixed _ => c.runUntil ch fuel (advance c.kernel.now ticks)
  | .tuned _ => ((List.range (ticks + 1)).foldlM (runTick ch fuel c.kernel.now) c).map syncKernelLeader

def fault (ch : Chance) (cmd : FaultCommand) (c : SmrCluster) : SmrCluster :=
  { c with kernel := c.kernel.applyFaultCommand ch.harness cmd }

def crash (ch : Chance) (id : NodeId) (c : SmrCluster) : SmrCluster :=
  { c.fault ch (.crash id) with live := c.live.erase id }

def restart (ch : Chance) (id : NodeId) (c : SmrCluster) : SmrCluster :=
  { c.fault ch (.restart id) with live := insert id c.live }

def step (ch : Chance) (fuel : ℕ) (c : SmrCluster) (op : DriverOp) : Option SmrCluster :=
  if c.kernel.halted.isSome then some c
  else match op with
    | .submit replica command => some (c.submit replica command)
    | .runFor ticks => c.runFor ch fuel ticks
    | .crash id => some (c.crash ch id)
    | .restart id => some (c.restart ch id)
    | .setSlow id multiplier => some (c.fault ch (.slowNode id multiplier))
    | .clearSlow id => some (c.fault ch (.clearSlow id))

/-- a driver program -/
def drive (ch : Chance) (fuel : ℕ) (c : SmrCluster) (prog : List DriverOp) : Option SmrCluster :=
  prog.foldlM (step ch fuel) c

variable {ch : Chance} {fuel : ℕ} {c c' : SmrCluster} {k k' : Kernel SmrNode Shared SmrMsg}

/-! ## What a driver does to the kernel -/

/-- all that a driver does to a kernel that runs, one thing at a time, besides submitting -/
inductive Turns (ch : Chance) : Kernel SmrNode Shared SmrMsg → Kernel SmrNode Shared SmrMsg → Prop where
  | leads (k : Kernel SmrNode Shared SmrMsg) (leader : Option NodeId) : Turns ch k (k.setLeader leader)
  | faults (k : Kernel SmrNode Shared SmrMsg) (cmd : FaultCommand) : Turns ch k (k.applyFaultCommand ch.harness cmd)
  | dispatches (k : Kernel SmrNode Shared SmrMsg) : Turns ch k (k.dispatch ch.harness)

/-- all that a driver does to a kernel that runs -/
inductive Acts (ch : Chance) : Kernel SmrNode Shared SmrMsg → Kernel SmrNode Shared SmrMsg → Prop where
  | turns {k k' : Kernel SmrNode Shared SmrMsg} (h : Turns ch k k') : Acts ch k k'
  | submits (c : SmrCluster) (replica : NodeId) (command : Command) :
      Acts ch c.kernel (c.submit replica command).kernel

theorem syncKernelLeader_turns (c : SmrCluster) :
    c.syncKernelLeader.kernel = c.kernel ∨
      c.kernel.halted = none ∧ ∃ leader, c.syncKernelLeader.kernel = c.kernel.setLeader leader := by
  unfold syncKernelLeader
  split_ifs with hhalt
  · exact .inl rfl
  · have hok : c.kernel.halted = none := by simpa using hhalt
    split
    · exact .inl rfl
    · split_ifs
      · exact .inl rfl
      · exact .inr ⟨hok, _, rfl⟩

section Rule

variable {I : Kernel SmrNode Shared SmrMsg → Prop}
  (hI : ∀ k k', I k → k.halted = none → Turns ch k k' → I k')

include hI

theorem syncKernelLeader_invariant (h : I c.kernel) : I c.syncKernelLeader.kernel := by
  rcases syncKernelLeader_turns c with hsame | ⟨hok, leader, hlead⟩
  · rw [hsame]
    exact h
  · rw [hlead]
    exact hI _ _ h hok (.leads _ leader)

theorem runUntil_keeps {limit : ℕ} (h : I c.kernel) (hr : c.runUntil ch fuel limit = some c') : I c'.kernel := by
  obtain ⟨k, hk, rfl⟩ := Option.map_eq_some_iff.1 hr
  exact runUntil_invariant (I := I) ch.harness (fun k h hok _ => hI _ _ h hok (.dispatches k)) h hk

theorem runTicks_keeps {start : ℕ} {ticks : List ℕ} (h : I c.kernel)
    (hr : ticks.foldlM (runTick ch fuel start) c = some c') : I c'.kernel := by
  induction ticks generalizing c with
  | nil =>
    obtain rfl := Option.some.inj hr
    exact h
  | cons tick ticks ih =>
    rw [List.foldlM_cons] at hr
    obtain ⟨c₁, hc₁, hr⟩ := Option.bind_eq_some_iff.1 hr
    exact ih (runUntil_keeps hI (syncKernelLeader_invariant hI h) hc₁) hr

/-- **Rule of the driver's calls.** What every turn preserves, a call preserves that is not a submission. -/
theorem call_invariant {op : DriverOp} (hop : ∀ replica command, op ≠ .submit replica command) (h : I c.kernel)
    (hr : c.step ch fuel op = some c') : I c'.kernel := by
  unfold step at hr
  split_ifs at hr with hhalt
  · obtain rfl := Option.some.inj hr
    exact h
  have hok : c.kernel.halted = none := by simpa using hhalt
  cases op with
  | submit replica command => exact absurd rfl (hop replica command)
  | runFor ticks =>
    dsimp only [runFor] at hr
    split at hr
    · exact runUntil_keeps hI h hr
    · obtain ⟨c₁, hc₁, rfl⟩ := Option.map_eq_some_iff.1 hr
      exact syncKernelLeader_invariant hI (runTicks_keeps hI h hc₁)
  | crash id =>
    obtain rfl := Option.some.inj hr
    exact hI _ _ h hok (.faults c.kernel (.crash id))
  | restart id =>
    obtain rfl := Option.some.inj hr
    exact hI _ _ h hok (.faults c.kernel (.restart id))
  | setSlow id multiplier =>
    obtain rfl := Option.some.inj hr
    exact hI _ _ h hok (.faults c.kernel (.slowNode id multiplier))
  | clearSlow id =>
    obtain rfl := Option.some.inj hr
    exact hI _ _ h hok (.faults c.kernel (.clearSlow id))

end Rule

/-- a submission to a cluster that runs -/
theorem step_submit {replica : NodeId} {command : Command} (hr : c.step ch fuel (.submit replica command) = some c') :
    c.kernel.halted ≠ none ∧ c' = c ∨ c.kernel.halted = none ∧ c' = c.submit replica command := by
  unfold step at hr
  split_ifs at hr with hhalt
  · obtain rfl := Option.some.inj hr
    exact .inl ⟨Option.isSome_iff_ne_none.1 hhalt, rfl⟩
  · obtain rfl := Option.some.inj hr
    exact .inr ⟨by simpa using hhalt, rfl⟩

theorem drive_append {p q : List DriverOp} (hr : c.drive ch fuel (p ++ q) = some c') :
    ∃ c₁, c.drive ch fuel p = some c₁ ∧ c₁.drive ch fuel q = some c' := by
  unfold drive at hr
  rw [List.foldlM_append] at hr
  exact Option.bind_eq_some_iff.1 hr

theorem drive_cons {op : DriverOp} {p : List DriverOp} (hr : c.drive ch fuel (op :: p) = some c') :
    ∃ c₁, c.step ch fuel op = some c₁ ∧ c₁.drive ch fuel p = some c' := by
  unfold drive at hr
  rw [List.foldlM_cons] at hr
  exact Option.bind_eq_some_iff.1 hr

section Program

variable {I : Kernel SmrNode Shared SmrMsg → Prop} (hI : ∀ k k', I k → k.halted = none → Acts ch k k' → I k')

include hI

theorem step_invariant {op : DriverOp} (h : I c.kernel) (hr : c.step ch fuel op = some c') : I c'.kernel := by
  by_cases hop : ∃ replica command, op = .submit replica command
  · obtain ⟨replica, command, rfl⟩ := hop
    rcases step_submit hr with ⟨-, rfl⟩ | ⟨hok, rfl⟩
    · exact h
    · exact hI _ _ h hok (.submits c replica command)
  · push Not at hop
    exact call_invariant (fun k k' h hok ht => hI k k' h hok (.turns ht)) hop h hr

/-- **Rule of driver programs.** What every act preserves, a program preserves. -/
theorem drive_invariant {prog : List DriverOp} (h : I c.kernel) (hr : c.drive ch fuel prog = some c') :
    I c'.kernel := by
  induction prog generalizing c with
  | nil =>
    obtain rfl := Option.some.inj hr
    exact h
  | cons op prog ih =>
    obtain ⟨c₁, hc₁, hr⟩ := drive_cons hr
    exact ih (step_invariant hI h hc₁) hr

end Program

/-! ## What happens to the results -/

/-- a callback leaves the results alone, or completes an operation that its replica held -/
theorem called_results {ctx : SmrCtx} {nd : SmrNode} {sh : Shared} {r : SmrNode × Shared × List (Effect SmrMsg)}
    (h : Sim.Called SmrNode.behaviour ctx nd sh r) :
    (r.2.1.results = sh.results ∨
      ∃ id ∈ nd.held, ∃ slot outcome, r.2.1.results = (sh.complete id ctx.now slot outcome).results) ∧
    r.2.1.nextOpId = sh.nextOpId := by
  obtain ⟨nd', sh', fx⟩ := r
  have hhands : SmrNode.Hands ctx nd sh nd' sh' →
      (sh'.results = sh.results ∨
        ∃ id ∈ nd.held, ∃ slot outcome, sh'.results = (sh.complete id ctx.now slot outcome).results) ∧
      sh'.nextOpId = sh.nextOpId := by
    intro hh
    refine ⟨?_, hh.ids⟩
    rcases hh.held with ⟨-, hres⟩ | ⟨id, slot, outcome, hheld, hres⟩
    · exact .inl hres
    · exact .inr ⟨id, by rw [hheld]; exact List.mem_cons_self, slot, outcome, hres⟩
  rcases h with ⟨src, payload, hcall⟩ | ⟨id, hcall⟩ | hcall
  · cases payload with
    | request req => exact hhands (SmrNode.onRequest_hands ctx hcall)
    | response resp => exact hhands (SmrNode.onReply_hands hcall)
  · exact hhands (SmrNode.onTimer_hands hcall)
  · have hdrop := SmrNode.onRestart_drops hcall
    exact ⟨.inl hdrop.2.1, hdrop.2.2.1⟩

/-- a fault completes nothing: a restart drops what its replica held -/
theorem applyFaultCommand_results (hn : Harness SmrNode Shared SmrMsg (NodeId → Draw))
    (hb : hn.behaviour = SmrNode.behaviour) (k : Kernel SmrNode Shared SmrMsg) (cmd : FaultCommand) :
    (k.applyFaultCommand hn cmd).shared.results = k.shared.results ∧
      (k.applyFaultCommand hn cmd).shared.nextOpId = k.shared.nextOpId := by
  rcases applyFaultCommand_shared hn k cmd with hsame | ⟨i, nd, rng, r, -, hcall, hshared⟩
  · rw [hsame]
    exact ⟨rfl, rfl⟩
  · rw [hb] at hcall
    have hdrop := SmrNode.onRestart_drops hcall
    rw [hshared]
    exact ⟨hdrop.2.1, hdrop.2.2.1⟩

/-- every completion has happened -/
def Stamped (k : Kernel SmrNode Shared SmrMsg) : Prop :=
  ∀ id r t, k.shared.results.lookup id = some r → r.completedAt = some t → t ≤ k.now

theorem mem_completions {sh : Shared} {t : ℕ} :
    t ∈ sh.results.entries.filterMap (fun e => e.2.completedAt) ↔
      ∃ id r, sh.results.lookup id = some r ∧ r.completedAt = some t := by
  rw [List.mem_filterMap]
  constructor
  · rintro ⟨⟨id, r⟩, hmem, ht⟩
    exact ⟨id, r, AList.mem_lookup_iff.2 hmem, ht⟩
  · rintro ⟨id, r, hr, ht⟩
    exact ⟨⟨id, r⟩, AList.mem_lookup_iff.1 hr, ht⟩

/-- an invocation is later than every completion so far -/
theorem lt_nextInvokedAt (hs : Stamped c.kernel) (hclock : c.kernel.now < MAX) {id : OpId} {r : OpRecord} {t : ℕ}
    (hr : c.kernel.shared.results.lookup id = some r) (ht : r.completedAt = some t) : t < c.nextInvokedAt := by
  have hmem : t ∈ c.kernel.shared.results.entries.filterMap fun e => e.2.completedAt := mem_completions.2 ⟨id, r, hr, ht⟩
  unfold nextInvokedAt
  cases hmax : (c.kernel.shared.results.entries.filterMap fun e => e.2.completedAt).max? with
  | none =>
    rw [List.max?_eq_none_iff.1 hmax] at hmem
    cases hmem
  | some m =>
    have hm := List.max?_eq_some_iff.1 hmax
    obtain ⟨id', r', hr', ht'⟩ := mem_completions.1 hm.1
    have hle : t ≤ m := hm.2 t hmem
    have hnow : m ≤ c.kernel.now := hs id' r' m hr' ht'
    have hlt : m < advance m 1 := lt_advance (hnow.trans_lt hclock) Nat.one_pos
    exact (hle.trans_lt hlt).trans_le (le_max_right _ _)

/-- an invocation is one tick ahead of the clock at most -/
theorem nextInvokedAt_le (hs : Stamped c.kernel) : c.nextInvokedAt ≤ c.kernel.now + 1 := by
  unfold nextInvokedAt
  cases hmax : (c.kernel.shared.results.entries.filterMap fun e => e.2.completedAt).max? with
  | none => exact Nat.le_succ _
  | some m =>
    obtain ⟨id, r, hr, ht⟩ := mem_completions.1 (List.max?_eq_some_iff.1 hmax).1
    have hnow : m ≤ c.kernel.now := hs id r m hr ht
    have hadv : advance m 1 ≤ m + 1 := min_le_left _ _
    exact max_le (Nat.le_succ _) (by omega)

/-- while the clock is not at its end, an invocation's time is what it is in the world -/
theorem nextInvokedAt_eq (hs : Stamped c.kernel) (hclock : c.kernel.now < MAX) :
    c.nextInvokedAt = c.kernel.shared.nextInvokedAt c.kernel.now := by
  unfold nextInvokedAt Shared.nextInvokedAt
  cases hmax : (c.kernel.shared.results.entries.filterMap fun e => e.2.completedAt).max? with
  | none => rfl
  | some m =>
    obtain ⟨id, r, hr, ht⟩ := mem_completions.1 (List.max?_eq_some_iff.1 hmax).1
    have hnow : m ≤ c.kernel.now := hs id r m hr ht
    have hadv : advance m 1 = m + 1 := min_eq_left (by omega)
    dsimp only
    rw [hadv]

/-- what an act does to the results: nothing, it adds the pending record of a submission, or it completes an operation
at the time of an event of the agenda -/
inductive Settles (k k' : Kernel SmrNode Shared SmrMsg) : Prop where
  | same (hres : k'.shared.results = k.shared.results) (hids : k'.shared.nextOpId = k.shared.nextOpId)
  | adds (c : SmrCluster) (hc : c.kernel = k) (replica : NodeId) (command : Command)
      (hres : k'.shared.results =
        k.shared.results.insert k.shared.nextOpId ⟨replica, command, c.nextInvokedAt, none, none, none⟩)
      (hids : k'.shared.nextOpId = k.shared.nextOpId + 1)
  | completes (e : ScheduledEvent) (he : e ∈ k.queue) (hnow : k'.now = e.time) (i : NodeId) (nd : SmrNode)
      (hnd : k.nodes i = some nd) (id : OpId) (hid : id ∈ nd.held) (slot : ℕ) (outcome : OpOutcome)
      (hres : k'.shared.results = (k.shared.complete id k'.now slot outcome).results)
      (hids : k'.shared.nextOpId = k.shared.nextOpId)

/-- what a submission is to the driver, unless it panics -/
theorem submit_cases (c : SmrCluster) (replica : NodeId) (command : Command) :
    (∃ e, c.submit replica command = c.halt e) ∨
    ∃ nd, c.kernel.nodes replica = some nd ∧ command.client ≠ CATCH_UP_CLIENT ∧
      (c.submit replica command).live = c.live ∧ Carried
        { c.kernel with
          nodes := Function.update c.kernel.nodes replica (some (nd.enqueue c.kernel.shared.nextOpId command).1)
          shared :=
            { c.kernel.shared with
              results := c.kernel.shared.results.insert c.kernel.shared.nextOpId
                ⟨replica, command, c.nextInvokedAt, none, none, none⟩
              nextOpId := c.kernel.shared.nextOpId + 1
              history := c.kernel.shared.history ++ [.invoked c.kernel.shared.nextOpId command] } }
        (c.submit replica command).kernel := by
  unfold submit
  split_ifs with hclient
  · exact .inl ⟨_, rfl⟩
  cases hnd : c.kernel.nodes replica with
  | none => exact .inl ⟨_, rfl⟩
  | some nd =>
    refine .inr ⟨nd, rfl, hclient, rfl, ?_⟩
    dsimp only
    split_ifs
    · exact scheduleTimer_carries _ _ _ _
    · exact .refl _

theorem turns_settle (h : Turns ch k k') : Settles k k' ∧ k'.shared.nextOpId = k.shared.nextOpId := by
  cases h with
  | leads leader => exact ⟨.same rfl rfl, rfl⟩
  | faults cmd =>
    have hres := applyFaultCommand_results ch.harness rfl k cmd
    exact ⟨.same hres.1 hres.2, hres.2⟩
  | dispatches =>
    unfold Kernel.dispatch
    cases hq : k.queue with
    | nil => exact ⟨.same rfl rfl, rfl⟩
    | cons e queue =>
      have ht := handle_turned ch.harness e
        { k with now := e.time, queue := queue, dispatched := k.dispatched ++ [e] }
      rcases ht.shared with hsame | ⟨i, nd, rng, r, hnd, hcall, hshared⟩
      · exact ⟨.same (by rw [hsame]) (by rw [hsame]), by rw [hsame]⟩
      · obtain ⟨hres, hids⟩ := called_results hcall
        refine ⟨?_, by rw [hshared]; exact hids⟩
        rcases hres with hres | ⟨id, hid, slot, outcome, hres⟩
        · exact .same (by rw [hshared]; exact hres) (by rw [hshared]; exact hids)
        · refine .completes e (by rw [hq]; exact List.mem_cons_self) ht.now i nd hnd id hid slot outcome ?_ ?_
          · rw [hshared, ht.now]
            exact hres
          · rw [hshared]
            exact hids

theorem acts_settle (h : Acts ch k k') : Settles k k' := by
  cases h with
  | turns ht => exact (turns_settle ht).1
  | submits c replica command =>
    rcases submit_cases c replica command with ⟨e, hhalt⟩ | ⟨nd, -, -, -, hc⟩
    · rw [hhalt]
      exact .same rfl rfl
    · exact .adds c rfl replica command (by rw [hc.shared]) (by rw [hc.shared])

theorem acts_sound (hs : Sim.Sound k) (h : Acts ch k k') : Sim.Sound k' := by
  cases h with
  | turns ht =>
    cases ht with
    | leads leader => exact setLeader_sound hs leader
    | faults cmd => exact applyFaultCommand_sound hs ch.harness cmd
    | dispatches => exact dispatch_sound hs ch.harness
  | submits c replica command =>
    unfold submit
    split_ifs
    · exact hs.frame c.kernel.nodes c.kernel.shared c.kernel.leader (some (.panic .reservedClient))
    cases c.kernel.nodes replica with
    | none => exact hs.frame c.kernel.nodes c.kernel.shared c.kernel.leader (some (.panic .unknownReplica))
    | some nd =>
      dsimp only
      split_ifs
      · exact scheduleTimer_sound (hs.frame _ _ c.kernel.leader c.kernel.halted) replica 0 .kickoff
      · exact hs.frame _ _ c.kernel.leader c.kernel.halted

theorem acts_now (hs : Sim.Sound k) (h : Acts ch k k') : k.now ≤ k'.now := by
  cases h with
  | turns ht =>
    cases ht with
    | leads leader => exact le_rfl
    | faults cmd => exact (applyFaultCommand_turned ch.harness k cmd).now.ge
    | dispatches => exact dispatch_now hs ch.harness
  | submits c replica command =>
    rcases submit_cases c replica command with ⟨e, hhalt⟩ | ⟨nd, -, -, -, hc⟩
    · rw [hhalt]
      exact le_rfl
    · exact hc.now.ge

theorem acts_stamped (hs : Sim.Sound k) (hst : Stamped k) (h : Acts ch k k') : Stamped k' := by
  intro id r t hr ht
  have hnow := acts_now hs h
  cases acts_settle h with
  | same hres hids =>
    rw [hres] at hr
    exact (hst id r t hr ht).trans hnow
  | adds c hc replica command hres hids =>
    rw [hres] at hr
    by_cases hid : id = k.shared.nextOpId
    · rw [hid, AList.lookup_insert] at hr
      obtain rfl := Option.some.inj hr
      cases ht
    · rw [AList.lookup_insert_ne hid] at hr
      exact (hst id r t hr ht).trans hnow
  | completes e he hnow' i nd hnd id₀ hid slot outcome hres hids =>
    rw [hres, Smr.complete_lookup] at hr
    split_ifs at hr with heq
    · obtain ⟨r₀, -, rfl⟩ := Option.map_eq_some_iff.1 hr
      exact (Option.some.inj ht).ge
    · exact (hst id r t hr ht).trans hnow

/-! ## The world behind a driver -/

/-- a submission, or a step of an environment that neither loses nor copies -/
def GenuineOp : SmrOp → Prop
  | .env op => Genuine op
  | .submit _ _ => True

/-- the kernel is where some run of the cluster leads, in which nothing is lost or copied -/
def Mirrored (s : Smr.Setup) (k : Kernel SmrNode Shared SmrMsg) : Prop :=
  ∃ ops : List SmrOp, (∀ op ∈ ops, GenuineOp op) ∧ Matches k (s.cluster.run ops)

theorem reaches_run {w w' : Smr} (h : Reaches SmrNode.behaviour w w') :
    ∃ ops : List SmrOp, (∀ op ∈ ops, GenuineOp op) ∧ w.run ops = w' := by
  obtain ⟨ops, hops, rfl⟩ := h
  refine ⟨ops.map .env, fun op hop => ?_, ?_⟩
  · obtain ⟨op', hop', rfl⟩ := List.mem_map.1 hop
    exact hops op' hop'
  · exact List.foldl_map

theorem Mirrored.reaches {s : Smr.Setup} {w w' : Smr} {ops : List SmrOp} (hops : ∀ op ∈ ops, GenuineOp op)
    (hrun : s.cluster.run ops = w) (h : Reaches SmrNode.behaviour w w') (hm : Matches k w') : Mirrored s k := by
  obtain ⟨more, hmore, rfl⟩ := reaches_run h
  refine ⟨ops ++ more, fun op hop => ?_, ?_⟩
  · rcases List.mem_append.1 hop with hop | hop
    · exact hops op hop
    · exact hmore op hop
  · rw [← hrun] at hm
    have happ : s.cluster.run (ops ++ more) = (s.cluster.run ops).run more := Runs.run_append _ _ _ _
    rw [happ]
    exact hm

/-- **A submission** is one in the world, at the same time. -/
theorem submit_refines {w : Smr} (h : Matches c.kernel w) (hst : Stamped c.kernel) (hclock : c.kernel.now < MAX)
    (hok : c.kernel.halted = none) (replica : NodeId) (command : Command) :
    Matches (c.submit replica command).kernel (w.step (.submit replica command)) := by
  have hstep : w.step (.submit replica command) = w.submit replica command := by
    unfold Smr.step
    dsimp only
    rw [if_neg (by simp [h.running hok])]
  rw [hstep]
  unfold submit Smr.submit
  split_ifs with hclient
  · exact ⟨h.nodes, h.shared, h.crashed, h.now, h.net, h.timers, rfl⟩
  have hnode : w.nodes replica = c.kernel.nodes replica := by rw [h.nodes]
  rw [hnode]
  cases c.kernel.nodes replica with
  | none => exact ⟨h.nodes, h.shared, h.crashed, h.now, h.net, h.timers, rfl⟩
  | some nd =>
    dsimp only
    have hids : w.shared.nextOpId = c.kernel.shared.nextOpId := by rw [h.shared]
    have hat : w.shared.nextInvokedAt w.now = c.nextInvokedAt := by
      rw [nextInvokedAt_eq hst hclock, h.shared, h.now]
    have hm : Matches
        { c.kernel with
          nodes := Function.update c.kernel.nodes replica (some (nd.enqueue c.kernel.shared.nextOpId command).1)
          shared :=
            { c.kernel.shared with
              results := c.kernel.shared.results.insert c.kernel.shared.nextOpId
                ⟨replica, command, c.nextInvokedAt, none, none, none⟩
              nextOpId := c.kernel.shared.nextOpId + 1
              history := c.kernel.shared.history ++ [.invoked c.kernel.shared.nextOpId command] } }
        { w with
          nodes := Function.update w.nodes replica (some (nd.enqueue w.shared.nextOpId command).1)
          shared := { w.shared.invoke w.shared.nextOpId replica command w.now with nextOpId := w.shared.nextOpId + 1 } } := by
      refine ⟨?_, ?_, h.crashed, h.now, h.net, h.timers, h.panicked⟩
      · show Function.update w.nodes _ _ = _
        rw [h.nodes, hids]
      · show ({ w.shared.invoke w.shared.nextOpId replica command w.now with
          nextOpId := w.shared.nextOpId + 1 } : Shared) = _
        unfold Shared.invoke
        rw [hat, h.shared]
    rw [hids] at hm ⊢
    split_ifs
    · exact hm.scheduleTimer replica 0 .kickoff
    · exact hm

theorem acts_refine {s : Smr.Setup} (hs : Sim.Sound k) (hst : Stamped k) (hok : k.halted = none) (h : Acts ch k k')
    (hclock : k'.now < MAX) (hm : Mirrored s k) : Mirrored s k' := by
  have hnow := acts_now hs h
  obtain ⟨ops, hops, hm⟩ := hm
  cases h with
  | turns ht =>
    cases ht with
    | leads leader => exact ⟨ops, hops, hm.nodes, hm.shared, hm.crashed, hm.now, hm.net, hm.timers, hm.panicked⟩
    | faults cmd =>
      obtain ⟨w', hreach, hm'⟩ := applyFaultCommand_refines hm hs ch.harness hok cmd
      exact .reaches hops rfl hreach hm'
    | dispatches =>
      obtain ⟨w', hreach, hm'⟩ := dispatch_refines hm hs ch.harness hok hclock
      exact .reaches hops rfl hreach hm'
  | submits c replica command =>
    have hm' := submit_refines hm hst (hnow.trans_lt hclock) hok replica command
    refine ⟨ops ++ [.submit replica command], fun op hop => ?_, ?_⟩
    · rcases List.mem_append.1 hop with hop | hop
      · exact hops op hop
      · rw [List.mem_singleton.1 hop]
        trivial
    · have hsnoc : s.cluster.run (ops ++ [.submit replica command]) =
          (s.cluster.run ops).step (.submit replica command) := Runs.run_snoc _ _ _ _
      rw [hsnoc]
      exact hm'

/-- what holds of the kernel of every program -/
structure Faithful (s : Smr.Setup) (k : Kernel SmrNode Shared SmrMsg) : Prop where
  sound : Sim.Sound k
  stamped : Stamped k
  mirrored : k.now < MAX → Mirrored s k

theorem faithful_ofSetup (s : Smr.Setup) : Faithful s (ofSetup s).kernel := by
  have hbuild : ∀ n policy hint, Sim.Sound (build n policy hint).kernel := fun n policy hint =>
    (setLeader_sound (sound_new ⟨∅, 0, policy, []⟩) hint).frame _ _ hint none
  cases s with
  | leader n leader =>
    exact ⟨hbuild _ _ _, fun id r t hr => absurd hr (by simp [ofSetup, build, Kernel.setLeader, Kernel.record, Kernel.new]),
      fun _ => ⟨[], by simp, rfl, rfl, fun _ => rfl, rfl, le_rfl, rfl, rfl⟩⟩
  | tuning n epochLen baseDelay =>
    exact ⟨hbuild _ _ _, fun id r t hr => absurd hr (by simp [ofSetup, build, Kernel.setLeader, Kernel.record, Kernel.new]),
      fun _ => ⟨[], by simp, rfl, rfl, fun _ => rfl, rfl, le_rfl, rfl, rfl⟩⟩

/-- **Step lemma.** -/
theorem faithful_acts {s : Smr.Setup} (hf : Faithful s k) (hok : k.halted = none) (h : Acts ch k k') :
    Faithful s k' :=
  ⟨acts_sound hf.sound h, acts_stamped hf.sound hf.stamped h, fun hclock =>
    acts_refine hf.sound hf.stamped hok h hclock (hf.mirrored ((acts_now hf.sound h).trans_lt hclock))⟩

theorem faithful_drive {s : Smr.Setup} {prog : List DriverOp} (hr : (ofSetup s).drive ch fuel prog = some c) :
    Faithful s c.kernel :=
  drive_invariant (I := Faithful s) (fun _ _ hf hok h => faithful_acts hf hok h) (faithful_ofSetup s) hr

/-- **Every driver program is a run of the cluster** in which no message or timer is copied and no timer is lost, while
the clock has not reached its end. -/
theorem drive_refines {s : Smr.Setup} {prog : List DriverOp} (hr : (ofSetup s).drive ch fuel prog = some c)
    (hclock : c.kernel.now < MAX) :
    ∃ ops : List SmrOp, (∀ op ∈ ops, GenuineOp op) ∧ Matches c.kernel (s.cluster.run ops) :=
  (faithful_drive hr).mirrored hclock

end SmrCluster

end Queso
