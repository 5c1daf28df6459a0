/-
Invocation times are the driver's program order.

A run of the kernel leaves it with a clock that lags behind the instant the run was asked to reach, and an invocation can
be one tick ahead of that clock. What keeps the two apart: between calls nothing on the agenda is due at the present
instant (`Settled`), so all that still happens is at least one tick ahead, no earlier than an invocation made now
(`Since`); an operation completes at the time of an event of the agenda, and once completed it stays as it is.

`invoked_in_program_order`: one operation completed before another one's invocation, by the recorded times, iff it had
completed when the other was submitted. Assumes the clock is not at its end.
-/
import Queso.Smr.Driver

namespace Queso

open Sim

namespace SmrCluster

variable {ch : Chance} {fuel limit start : ℕ} {c c' c₁ : SmrCluster} {k k' : Kernel SmrNode Shared SmrMsg}
  {s : Smr.Setup}

/-! ## Between calls -/

/-- nothing is due at the present instant -/
def Settled (k : Kernel SmrNode Shared SmrMsg) : Prop :=
  k.halted = none → k.now < MAX → ∀ e ∈ k.queue, k.now < e.time

/-- scheduling ahead leaves the present alone -/
theorem Settled.later (h : Settled k) (hok : k.halted = none) (hlater : Later k k') (hnow : k'.now = k.now) :
    Settled k' := by
  intro _ hclock e he
  rw [hnow] at hclock ⊢
  rcases hlater.mem hclock he with he | he
  · exact h hok hclock e he
  · exact he

theorem settled_submit (h : Settled c.kernel) (hok : c.kernel.halted = none) (replica : NodeId) (command : Command) :
    Settled (c.submit replica command).kernel := by
  rcases submit_cases c replica command with ⟨e, hhalt⟩ | ⟨nd, -, -, -, hc⟩
  · rw [hhalt]
    intro hend
    cases hend
  · obtain ⟨fresh, hperm, hahead⟩ := hc.later
    exact h.later hok ⟨fresh, hperm, hahead⟩ hc.now

theorem settled_fault (ch : Chance) (h : Settled k) (hok : k.halted = none) (cmd : FaultCommand) :
    Settled (k.applyFaultCommand ch.harness cmd) :=
  h.later hok (applyFaultCommand_turned ch.harness k cmd).later (applyFaultCommand_turned ch.harness k cmd).now

theorem settled_sync (h : Settled c.kernel) : Settled c.syncKernelLeader.kernel := by
  rcases syncKernelLeader_turns c with hsame | ⟨hok, leader, hlead⟩
  · rw [hsame]
    exact h
  · rw [hlead]
    exact h.later hok (.same rfl) rfl

/-- where a run up to `limit` leaves the kernel -/
structure Reached (limit : ℕ) (k : Kernel SmrNode Shared SmrMsg) : Prop where
  sound : Sim.Sound k
  clock : k.now ≤ limit
  settled : Settled k

theorem runUntil_reached (hs : Sim.Sound c.kernel) (hle : c.kernel.now ≤ limit)
    (hr : c.runUntil ch fuel limit = some c') : Reached limit c'.kernel := by
  obtain ⟨k, hk, rfl⟩ := Option.map_eq_some_iff.1 hr
  let I : Kernel SmrNode Shared SmrMsg → Prop := fun k => Sim.Sound k ∧ k.now ≤ limit
  have hI : I k := by
    refine runUntil_invariant (I := I) ch.harness (fun k h _ hdue => ?_) ⟨hs, hle⟩ hk
    obtain ⟨e, queue, hq, htime⟩ := due_head hdue
    refine ⟨dispatch_sound h.1 ch.harness, ?_⟩
    unfold Kernel.dispatch
    rw [hq]
    dsimp only
    rw [handle_now]
    exact htime
  refine ⟨hI.1, hI.2, fun hok _ e he => ?_⟩
  rcases runUntil_ends hk with hend | hend
  · exact absurd hok hend
  · exact hI.2.trans_lt (not_due hI.1 hend e he)

theorem runTick_reached {tick : ℕ} (hs : Sim.Sound c.kernel) (hle : c.kernel.now ≤ advance start tick)
    (hr : runTick ch fuel start c tick = some c') : Reached (advance start tick) c'.kernel := by
  have hsync : Sim.Sound c.syncKernelLeader.kernel ∧ c.syncKernelLeader.kernel.now = c.kernel.now := by
    rcases syncKernelLeader_turns c with hsame | ⟨-, leader, hlead⟩
    · rw [hsame]
      exact ⟨hs, rfl⟩
    · rw [hlead]
      exact ⟨setLeader_sound hs leader, rfl⟩
  exact runUntil_reached hsync.1 (by rw [hsync.2]; exact hle) hr

theorem runTicks_reached {ticks : ℕ} (hs : Sim.Sound c.kernel) (hle : c.kernel.now ≤ start) (hmax : start ≤ MAX)
    (hr : (List.range (ticks + 1)).foldlM (runTick ch fuel start) c = some c') :
    Reached (advance start ticks) c'.kernel := by
  induction ticks generalizing c' with
  | zero =>
    have hone : List.range (0 + 1) = [0] := rfl
    rw [hone, List.foldlM_cons] at hr
    obtain ⟨c₁, hc₁, hr⟩ := Option.bind_eq_some_iff.1 hr
    obtain rfl := Option.some.inj hr
    exact runTick_reached hs (hle.trans (le_advance hmax 0)) hc₁
  | succ ticks ih =>
    rw [List.range_succ, List.foldlM_append] at hr
    obtain ⟨c₁, hc₁, hr⟩ := Option.bind_eq_some_iff.1 hr
    rw [List.foldlM_cons] at hr
    obtain ⟨c₂, hc₂, hr⟩ := Option.bind_eq_some_iff.1 hr
    obtain rfl := Option.some.inj hr
    have hreached := ih hc₁
    have hmono : advance start ticks ≤ advance start (ticks + 1) := by unfold advance; omega
    exact runTick_reached hreached.sound (hreached.clock.trans hmono) hc₂

/-- **A call leaves nothing due.** -/
theorem settled_step {op : DriverOp} (hs : Sim.Sound c.kernel) (h : Settled c.kernel)
    (hr : c.step ch fuel op = some c') : Settled c'.kernel := by
  unfold step at hr
  split_ifs at hr with hhalt
  · obtain rfl := Option.some.inj hr
    exact h
  have hok : c.kernel.halted = none := by simpa using hhalt
  cases op with
  | submit replica command =>
    obtain rfl := Option.some.inj hr
    exact settled_submit h hok replica command
  | runFor ticks =>
    dsimp only [runFor] at hr
    split at hr
    · exact (runUntil_reached hs (le_advance hs.clock ticks) hr).settled
    · obtain ⟨c₁, hc₁, rfl⟩ := Option.map_eq_some_iff.1 hr
      exact settled_sync (runTicks_reached hs le_rfl hs.clock hc₁).settled
  | crash id =>
    obtain rfl := Option.some.inj hr
    exact settled_fault ch h hok (.crash id)
  | restart id =>
    obtain rfl := Option.some.inj hr
    exact settled_fault ch h hok (.restart id)
  | setSlow id multiplier =>
    obtain rfl := Option.some.inj hr
    exact settled_fault ch h hok (.slowNode id multiplier)
  | clearSlow id =>
    obtain rfl := Option.some.inj hr
    exact settled_fault ch h hok (.clearSlow id)

theorem settled_ofSetup (s : Smr.Setup) : Settled (ofSetup s).kernel := by
  intro _ _ e he
  cases s with
  | leader n leader => cases he
  | tuning n epochLen baseDelay => cases he

theorem settled_drive {prog : List DriverOp} (hr : (ofSetup s).drive ch fuel prog = some c) : Settled c.kernel := by
  induction prog using List.reverseRecOn generalizing c with
  | nil =>
    obtain rfl := Option.some.inj hr
    exact settled_ofSetup s
  | append_singleton prog op ih =>
    obtain ⟨c₁, hc₁, hr⟩ := drive_append hr
    obtain ⟨c₂, hc₂, hr⟩ := drive_cons hr
    obtain rfl := Option.some.inj hr
    exact settled_step (faithful_drive hc₁).sound (ih hc₁) hc₂

/-! ## After a submission -/

/-- the custody of the replicas, read off the kernel -/
theorem Mirrored.owed (h : Mirrored s k) {i : NodeId} {nd : SmrNode} {id : OpId} (hnd : k.nodes i = some nd)
    (hid : id ∈ nd.held) : ∃ r, k.shared.results.lookup id = some r ∧ r.completedAt = none := by
  obtain ⟨ops, -, hm⟩ := h
  rw [← hm.nodes] at hnd
  rw [← hm.shared]
  exact (Smr.custody_run s ops).owed i nd id hnd hid

theorem Mirrored.known (h : Mirrored s k) {id : OpId} {r : OpRecord} (hr : k.shared.results.lookup id = some r) :
    id < k.shared.nextOpId := by
  obtain ⟨ops, -, hm⟩ := h
  rw [← hm.shared] at hr ⊢
  exact (Smr.custody_run s ops).known id r hr

/-- where things stand since the operation `b` was submitted at time `T`, when the results were `past` -/
structure Since (past : AList fun _ : OpId => OpRecord) (b : OpId) (T : ℕ) (k : Kernel SmrNode Shared SmrMsg) :
    Prop where
  ahead : T ≤ k.now + 1
  agenda : ∀ e ∈ k.queue, T ≤ e.time
  own : ∃ r, k.shared.results.lookup b = some r ∧ r.invokedAt = T
  kept : ∀ a r t, past.lookup a = some r → r.completedAt = some t → k.shared.results.lookup a = some r
  late : ∀ a r t, k.shared.results.lookup a = some r → r.completedAt = some t →
    (∃ r' t', past.lookup a = some r' ∧ r'.completedAt = some t') ∨ T ≤ t

variable {past : AList fun _ : OpId => OpRecord} {b : OpId} {T : ℕ}

/-- what was no earlier than an invocation stays so -/
theorem Since.agenda_later (h : Since past b T k) (hclock : k.now < MAX) (hlater : Later k k') :
    ∀ e ∈ k'.queue, T ≤ e.time := by
  intro e he
  rcases hlater.mem hclock he with he | he
  · exact h.agenda e he
  · exact h.ahead.trans he

theorem since_agenda (h : Since past b T k) (hs : Sim.Sound k) (ha : Acts ch k k') (hclock : k'.now < MAX) :
    ∀ e ∈ k'.queue, T ≤ e.time := by
  have hclock₀ : k.now < MAX := (acts_now hs ha).trans_lt hclock
  cases ha with
  | submits c replica command =>
    rcases submit_cases c replica command with ⟨e, hhalt⟩ | ⟨nd, -, -, -, hc⟩
    · rw [hhalt]
      exact h.agenda
    · obtain ⟨fresh, hperm, hahead⟩ := hc.later
      exact h.agenda_later hclock₀ ⟨fresh, hperm, hahead⟩
  | turns ht =>
    cases ht with
    | leads leader => exact h.agenda
    | faults cmd => exact h.agenda_later hclock₀ (applyFaultCommand_turned ch.harness k cmd).later
    | dispatches =>
      unfold Kernel.dispatch at hclock ⊢
      cases hq : k.queue with
      | nil =>
        dsimp only
        exact h.agenda
      | cons e queue =>
        rw [hq] at hclock
        dsimp only at hclock ⊢
        have ht := handle_turned ch.harness e
          { k with now := e.time, queue := queue, dispatched := k.dispatched ++ [e] }
        have htime : T ≤ e.time := h.agenda e (by rw [hq]; exact List.mem_cons_self)
        rw [handle_now] at hclock
        intro e' he'
        rcases ht.later.mem hclock he' with he' | he'
        · exact h.agenda e' (by rw [hq]; exact List.mem_cons_of_mem _ he')
        · exact htime.trans he'.le

/-- **Step lemma.** What had completed stays, and what completes now is no earlier than the invocation. -/
theorem since_acts (h : Since past b T k) (hs : Sim.Sound k) (hm : Mirrored s k) (ha : Acts ch k k')
    (hclock : k'.now < MAX) : Since past b T k' := by
  have hnow := acts_now hs ha
  have hahead : T ≤ k'.now + 1 := h.ahead.trans (Nat.succ_le_succ hnow)
  have hagenda := since_agenda h hs ha hclock
  obtain ⟨rb, hrb, hT⟩ := h.own
  cases acts_settle ha with
  | same hres _ =>
    exact ⟨hahead, hagenda, ⟨rb, by rw [hres]; exact hrb, hT⟩, fun a r t hr ht => by rw [hres]; exact h.kept a r t hr ht,
      fun a r t hr ht => h.late a r t (by rw [← hres]; exact hr) ht⟩
  | adds c hc replica command hres _ =>
    refine ⟨hahead, hagenda, ⟨rb, ?_, hT⟩, fun a r t hr ht => ?_, fun a r t hr ht => ?_⟩
    · rw [hres, AList.lookup_insert_ne (hm.known hrb).ne]
      exact hrb
    · have hold := h.kept a r t hr ht
      rw [hres, AList.lookup_insert_ne (hm.known hold).ne]
      exact hold
    · rw [hres] at hr
      by_cases hid : a = k.shared.nextOpId
      · rw [hid, AList.lookup_insert] at hr
        obtain rfl := Option.some.inj hr
        cases ht
      · rw [AList.lookup_insert_ne hid] at hr
        exact h.late a r t hr ht
  | completes e he hnow' i nd hnd id hid slot outcome hres _ =>
    -- the operation that completes was owed, so it is none of those that had completed
    obtain ⟨r₀, hr₀, hnone⟩ := hm.owed hnd hid
    refine ⟨hahead, hagenda, ?_, fun a r t hr ht => ?_, fun a r t hr ht => ?_⟩
    · rw [hres, Smr.complete_lookup]
      split_ifs with hb
      · rw [← hb, hrb]
        exact ⟨_, rfl, hT⟩
      · exact ⟨rb, hrb, hT⟩
    · have hold := h.kept a r t hr ht
      rw [hres, Smr.complete_lookup, if_neg]
      · exact hold
      · rintro rfl
        obtain rfl := Option.some.inj (hr₀.symm.trans hold)
        rw [hnone] at ht
        cases ht
    · rw [hres, Smr.complete_lookup] at hr
      split_ifs at hr with ha'
      · obtain ⟨r₁, -, rfl⟩ := Option.map_eq_some_iff.1 hr
        obtain rfl := Option.some.inj ht
        rw [hnow']
        exact .inr (h.agenda e he)
      · exact h.late a r t hr ht

/-- **Run lemma.** -/
theorem since_drive {prog : List DriverOp} (hf : Faithful s c.kernel) (h : Since past b T c.kernel)
    (hr : c.drive ch fuel prog = some c') (hclock : c'.kernel.now < MAX) : Since past b T c'.kernel := by
  let I : Kernel SmrNode Shared SmrMsg → Prop := fun k => Faithful s k ∧ (k.now < MAX → Since past b T k)
  have hI : ∀ k k', I k → k.halted = none → Acts ch k k' → I k' := by
    intro k k' ⟨hf, hsince⟩ hok ha
    refine ⟨faithful_acts hf hok ha, fun hclock => ?_⟩
    have hclock₀ := (acts_now hf.sound ha).trans_lt hclock
    exact since_acts (hsince hclock₀) hf.sound (hf.mirrored hclock₀) ha hclock
  exact (drive_invariant (I := I) hI ⟨hf, fun _ => h⟩ hr).2 hclock

/-- at the submission -/
theorem since_submit (hf : Faithful s c.kernel) (hset : Settled c.kernel) (hok : c.kernel.halted = none)
    (hclock : c.kernel.now < MAX) {replica : NodeId} {command : Command}
    (hrun : (c.submit replica command).kernel.halted = none) :
    Since c.kernel.shared.results c.kernel.shared.nextOpId c.nextInvokedAt (c.submit replica command).kernel := by
  have hset' := settled_submit hset hok replica command
  rcases submit_cases c replica command with ⟨e, hhalt⟩ | ⟨nd, -, -, -, hc⟩
  · rw [hhalt] at hrun
    cases hrun
  have hnow : (c.submit replica command).kernel.now = c.kernel.now := hc.now
  have hle := nextInvokedAt_le hf.stamped
  have hnew : ∀ {a r}, c.kernel.shared.results.lookup a = some r → a ≠ c.kernel.shared.nextOpId :=
    fun hr => ((hf.mirrored hclock).known hr).ne
  refine ⟨by rw [hnow]; exact hle, fun e he => ?_, ⟨_, by rw [hc.shared]; exact AList.lookup_insert _, rfl⟩,
    fun a r t hr ht => ?_, fun a r t hr ht => ?_⟩
  · have hlt := hset' hrun (by rw [hnow]; exact hclock) e he
    rw [hnow] at hlt
    exact hle.trans hlt
  · rw [hc.shared]
    dsimp only
    rw [AList.lookup_insert_ne (hnew hr)]
    exact hr
  · rw [hc.shared] at hr
    dsimp only at hr
    by_cases hid : a = c.kernel.shared.nextOpId
    · rw [hid, AList.lookup_insert] at hr
      obtain rfl := Option.some.inj hr
      cases ht
    · rw [AList.lookup_insert_ne hid] at hr
      exact .inl ⟨r, t, hr, ht⟩

/-! ## The program order -/

/-- the program submits operation `b` to a cluster that runs, in the state `c₁` -/
def SubmittedAt (ch : Chance) (fuel : ℕ) (s : Smr.Setup) (prog : List DriverOp) (b : OpId) (c₁ : SmrCluster) : Prop :=
  ∃ before replica command after, prog = before ++ .submit replica command :: after ∧
    (ofSetup s).drive ch fuel before = some c₁ ∧ c₁.kernel.halted = none ∧ c₁.kernel.shared.nextOpId = b

/-- operation `a` is among the completed results -/
def HasCompleted (c : SmrCluster) (a : OpId) : Prop :=
  ∃ r t, c.kernel.shared.results.lookup a = some r ∧ r.completedAt = some t

/-- a call that does not submit records no operation -/
theorem call_records {op : DriverOp} (hop : ∀ replica command, op ≠ .submit replica command)
    (hr : c.step ch fuel op = some c') {b : OpId} (hid : (c'.kernel.shared.results.lookup b).isSome) :
    (c.kernel.shared.results.lookup b).isSome := by
  let I : Kernel SmrNode Shared SmrMsg → Prop := fun k =>
    (k.shared.results.lookup b).isSome → (c.kernel.shared.results.lookup b).isSome
  refine call_invariant (I := I) (fun k k' h hok ht hid => ?_) hop id hr hid
  obtain ⟨hsettle, hids⟩ := turns_settle ht
  cases hsettle with
  | same hres _ =>
    rw [hres] at hid
    exact h hid
  | adds c hc replica command _ hids' => omega
  | completes e he hnow i nd hnd id₀ hid₀ slot outcome hres _ =>
    rw [hres, Smr.complete_lookup] at hid
    split_ifs at hid with heq
    · subst heq
      exact h (by simpa using hid)
    · exact h hid

/-- **Every operation has its submission.** -/
theorem submission_of_record {prog : List DriverOp} (hr : (ofSetup s).drive ch fuel prog = some c) {b : OpId}
    (hb : (c.kernel.shared.results.lookup b).isSome) : ∃ c₁, SubmittedAt ch fuel s prog b c₁ := by
  induction prog using List.reverseRecOn generalizing c with
  | nil =>
    obtain rfl := Option.some.inj hr
    have hnone : (ofSetup s).kernel.shared.results.lookup b = none := by cases s <;> rfl
    rw [hnone] at hb
    cases hb
  | append_singleton prog op ih =>
    obtain ⟨c₁, hc₁, hr⟩ := drive_append hr
    obtain ⟨c₂, hc₂, hr⟩ := drive_cons hr
    obtain rfl := Option.some.inj hr
    by_cases hold : (c₁.kernel.shared.results.lookup b).isSome
    · obtain ⟨c₀, before, replica, command, after, rfl, hrest⟩ := ih hc₁ hold
      exact ⟨c₀, before, replica, command, after ++ [op], by simp, hrest⟩
    by_cases hop : ∃ replica command, op = .submit replica command
    · obtain ⟨replica, command, rfl⟩ := hop
      rcases step_submit hc₂ with ⟨-, rfl⟩ | ⟨hok, rfl⟩
      · exact absurd hb hold
      refine ⟨c₁, prog, replica, command, [], rfl, hc₁, hok, ?_⟩
      by_contra hne
      rcases submit_cases c₁ replica command with ⟨e, hhalt⟩ | ⟨nd, -, -, -, hc⟩
      · rw [hhalt] at hb
        exact hold hb
      · rw [hc.shared] at hb
        dsimp only at hb
        rw [AList.lookup_insert_ne (Ne.symm hne)] at hb
        exact hold hb
    · push Not at hop
      exact absurd (call_records hop hc₂ hb) hold

theorem step_halted {op : DriverOp} (h : c.kernel.halted ≠ none) (hr : c.step ch fuel op = some c') : c' = c := by
  unfold step at hr
  rw [if_pos (Option.isSome_iff_ne_none.2 h)] at hr
  exact (Option.some.inj hr).symm

theorem drive_halted {prog : List DriverOp} (h : c.kernel.halted ≠ none) (hr : c.drive ch fuel prog = some c') :
    c' = c := by
  induction prog generalizing c with
  | nil => exact (Option.some.inj hr).symm
  | cons op prog ih =>
    obtain ⟨c₁, hc₁, hrest⟩ := drive_cons hr
    obtain rfl := step_halted h hc₁
    exact ih h hrest

theorem drive_now {prog : List DriverOp} (hs : Sim.Sound c.kernel) (hr : c.drive ch fuel prog = some c') :
    c.kernel.now ≤ c'.kernel.now := by
  let I : Kernel SmrNode Shared SmrMsg → Prop := fun k => Sim.Sound k ∧ c.kernel.now ≤ k.now
  exact (drive_invariant (I := I) (fun k k' h _ ha => ⟨acts_sound h.1 ha, h.2.trans (acts_now h.1 ha)⟩) ⟨hs, le_rfl⟩
    hr).2

/-- a recorded operation's submission did not panic -/
theorem submit_runs {replica : NodeId} {command : Command} {prog : List DriverOp} (hf : Faithful s c.kernel)
    (hok : c.kernel.halted = none) (hclock : c.kernel.now < MAX)
    (hr : (c.submit replica command).drive ch fuel prog = some c') {r : OpRecord}
    (hb : c'.kernel.shared.results.lookup c.kernel.shared.nextOpId = some r) :
    (c.submit replica command).kernel.halted = none := by
  rcases submit_cases c replica command with ⟨e, hhalt⟩ | ⟨nd, -, -, -, hc⟩
  · rw [hhalt] at hr
    obtain rfl := drive_halted (by exact Option.some_ne_none _) hr
    exact absurd ((hf.mirrored hclock).known hb) (lt_irrefl _)
  · exact hc.halted.trans hok

/-- **Recorded invocation times are the program order.** -/
theorem invoked_in_program_order (ch : Chance) (fuel : ℕ) (s : Smr.Setup) (prog : List DriverOp) (c : SmrCluster)
    (hr : (ofSetup s).drive ch fuel prog = some c) (hclock : c.kernel.now < MAX) (a b : OpId) (ra rb : OpRecord)
    (ha : c.kernel.shared.results.lookup a = some ra) (hb : c.kernel.shared.results.lookup b = some rb) :
    (∃ c₁, SubmittedAt ch fuel s prog b c₁) ∧
    ∀ c₁, SubmittedAt ch fuel s prog b c₁ →
      ((∃ t, ra.completedAt = some t ∧ t < rb.invokedAt) ↔ c₁.HasCompleted a) := by
  refine ⟨submission_of_record hr (by rw [hb]; rfl), ?_⟩
  rintro c₁ ⟨before, replica, command, after, rfl, hc₁, hok, rfl⟩
  obtain ⟨c₁', hc₁', hrest⟩ := drive_append hr
  obtain rfl := Option.some.inj (hc₁.symm.trans hc₁')
  obtain ⟨c₂, hc₂, hrest⟩ := drive_cons hrest
  obtain rfl : c₂ = c₁.submit replica command := by
    rcases step_submit hc₂ with ⟨hne, -⟩ | ⟨-, heq⟩
    · exact absurd hok hne
    · exact heq
  have hf := faithful_drive hc₁
  have hf₂ := faithful_acts hf hok (@Acts.submits ch c₁ replica command)
  have hclock₁ : c₁.kernel.now < MAX :=
    ((acts_now hf.sound (@Acts.submits ch c₁ replica command)).trans (drive_now hf₂.sound hrest)).trans_lt hclock
  have hrun := submit_runs hf hok hclock₁ hrest hb
  have hsince := since_drive hf₂ (since_submit hf (settled_drive hc₁) hok hclock₁ hrun) hrest hclock
  have hT : rb.invokedAt = c₁.nextInvokedAt := by
    obtain ⟨r, hown, hT⟩ := hsince.own
    obtain rfl := Option.some.inj (hb.symm.trans hown)
    exact hT
  rw [hT]
  constructor
  · intro ⟨t, ht, hlt⟩
    rcases hsince.late a ra t ha ht with ⟨r, t', hpast, hdone⟩ | hlate
    · exact ⟨r, t', hpast, hdone⟩
    · exact absurd hlt (not_lt.2 hlate)
  · intro ⟨r, t, hpast, hdone⟩
    obtain rfl := Option.some.inj (ha.symm.trans (hsince.kept a r t hpast hdone))
    exact ⟨t, hdone, lt_nextInvokedAt hf.stamped hclock₁ hpast hdone⟩

/-- every message takes one tick -/
def steady : Chance := ⟨fun _ _ => .deliver 1, fun _ => drawing 1⟩

/-- a write and a read at once, and a read once the write has completed -/
def causalPair : List DriverOp :=
  [.submit 0 (.put 0 1 0 10), .submit 1 (.get 1 1 0), .runFor 3, .submit 2 (.get 2 1 0), .runFor 20]

theorem invoked_in_program_order_causalPair :
    ∃ c ra rb, (ofSetup (.leader 3 (some 0))).drive steady 100 causalPair = some c ∧
      c.kernel.shared.results.lookup 0 = some ra ∧ c.kernel.shared.results.lookup 2 = some rb ∧
      ra.completedAt = some 3 ∧ rb.invokedAt = 4 ∧
      (∃ c₁, SubmittedAt steady 100 (.leader 3 (some 0)) causalPair 2 c₁) ∧
      ∀ c₁, SubmittedAt steady 100 (.leader 3 (some 0)) causalPair 2 c₁ →
        ((∃ t, ra.completedAt = some t ∧ t < rb.invokedAt) ↔ c₁.HasCompleted 0) := by
  have hrun : (((ofSetup (.leader 3 (some 0))).drive steady 100 causalPair).map fun c =>
      (decide (c.kernel.now < MAX), c.kernel.shared.results.lookup 0, c.kernel.shared.results.lookup 2)) =
      some (true, some ⟨0, .put 0 1 0 10, 0, some 3, some .put, some 0⟩,
        some ⟨2, .get 2 1 0, 4, some 18, some (.get (some 10)), some 2⟩) := by
    decide +kernel
  obtain ⟨c, hc, hres⟩ := Option.map_eq_some_iff.1 hrun
  simp only [Prod.mk.injEq, decide_eq_true_eq] at hres
  exact ⟨c, _, _, hc, hres.2.1, hres.2.2, rfl, rfl,
    invoked_in_program_order steady 100 (.leader 3 (some 0)) causalPair c hc hres.1 0 2 _ _ hres.2.1 hres.2.2⟩

end SmrCluster

end Queso
