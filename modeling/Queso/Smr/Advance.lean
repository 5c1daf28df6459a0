/-
Advancing a cluster by ticks, and when two calls do what one does.

`runFor` sets its target from the clock, and the clock moves only with an event. `turn` is one turn of a call whatever
the policy: an event, and at the end of its instant the scheduler is told the leader; a call is the event loop of these
turns up to its target (`runFor_runs`). So two calls agree with one call for all the ticks up to the second one's target,
which falls short of the joint one by as much as the clock did of the first (`composes_iff`).

Results, in every state that a driver program reaches, under a fixed leader or a tuner:
- `advances_compose_iff`: two calls leave what the joint call leaves iff no event of the joint call falls into the part of
  the window that the second call does not reach; a repeated call dispatches the first event of the agenda iff one of the
  calls alone reaches it.
Witness:
- `advances_stall`: a message that takes longer than a call's ticks is never delivered by repeating the call.
-/
import Queso.Lib.EventLoop
import Queso.Smr.Driver

namespace Queso

open Sim

namespace SmrCluster

variable {ch : Chance} {fuel limit ticks : ℕ} {c c' c₁ c₂ : SmrCluster}

/-! ## The policy -/

theorem noteAttemptStart_fixed {p : LeaderPolicy} {leader : Option NodeId} (hp : p = .fixed leader) (slot now : ℕ) :
    p.noteAttemptStart slot now = .fixed leader := by
  subst hp
  rfl

theorem started_fixed {ctx : SmrCtx} {nd nd' : SmrNode} {sh sh' : Shared} {origin : AttemptOrigin} {command : Command}
    {hint leader : Option NodeId} {fx : List (Effect SmrMsg)}
    (h : SmrNode.Started ctx nd sh origin command hint nd' sh' fx) (hp : sh.policy = .fixed leader) :
    sh'.policy = .fixed leader := by
  rw [h.shared]
  exact noteAttemptStart_fixed hp _ _

theorem resumes_fixed {ctx : SmrCtx} {nd nd' : SmrNode} {sh sh' : Shared} {leader : Option NodeId}
    {fx : List (Effect SmrMsg)} (h : SmrNode.Resumes ctx nd sh nd' sh' fx) (hp : sh.policy = .fixed leader) :
    sh'.policy = .fixed leader := by
  cases h with
  | rests => exact hp
  | proposes _ _ h => exact started_fixed h hp
  | probes h => exact started_fixed h hp

/-- a cluster with a fixed leader keeps it -/
theorem called_fixed {ctx : SmrCtx} {nd : SmrNode} {sh : Shared} {r : SmrNode × Shared × List (Effect SmrMsg)}
    {leader : Option NodeId} (h : Sim.Called SmrNode.behaviour ctx nd sh r) (hp : sh.policy = .fixed leader) :
    r.2.1.policy = .fixed leader := by
  obtain ⟨nd', sh', fx⟩ := r
  rcases h with ⟨src, payload, hcall⟩ | ⟨id, hcall⟩ | hcall
  · cases payload with
    | request req =>
      obtain rfl := (Prod.mk.inj (Prod.mk.inj (Except.ok.inj hcall)).2).1
      exact hp
    | response resp =>
      rcases SmrNode.onReply_moves hcall with ⟨-, rfl, -⟩ | ⟨attempt, p, fx₁, nd₁, -, -, -, -,
        ⟨-, -, rfl, -⟩ | ⟨decided, ended, nd₂, sh₂, fx₂, -, -, hended, hres, -⟩⟩
      · exact hp
      · exact hp
      · apply resumes_fixed hres
        have hnote := hended.policy
        rw [hp] at hnote
        exact (Except.ok.inj hnote).symm
  · rcases SmrNode.onTimer_moves hcall with ⟨-, rfl, -⟩ | ⟨-, hres, -⟩ | ⟨-, hst⟩ | ⟨_, _, -, -, -, -, rfl⟩
    · exact hp
    · exact resumes_fixed hres hp
    · exact started_fixed hst hp
    · exact hp
  · exact started_fixed (SmrNode.onRestart_moves hcall) hp

/-! ## Telling the scheduler the leader -/

theorem syncKernelLeader_fixed {leader : Option NodeId} (hp : c.kernel.shared.policy = .fixed leader) :
    c.syncKernelLeader = c := by
  unfold syncKernelLeader
  rw [hp]
  exact ite_self c

/-- the agenda and the clock are left alone -/
structure Told (c c' : SmrCluster) : Prop where
  queue : c'.kernel.queue = c.kernel.queue
  now : c'.kernel.now = c.kernel.now
  halted : c'.kernel.halted = c.kernel.halted
  dispatched : c'.kernel.dispatched = c.kernel.dispatched
  shared : c'.kernel.shared = c.kernel.shared

theorem syncKernelLeader_told (c : SmrCluster) : Told c c.syncKernelLeader := by
  rcases syncKernelLeader_turns c with hsame | ⟨-, leader, hlead⟩
  · constructor <;> rw [hsame]
  · constructor <;> rw [hlead] <;> rfl

theorem syncKernelLeader_sound (hs : Sim.Sound c.kernel) : Sim.Sound c.syncKernelLeader.kernel := by
  rcases syncKernelLeader_turns c with hsame | ⟨-, leader, hlead⟩
  · rw [hsame]
    exact hs
  · rw [hlead]
    exact setLeader_sound hs leader

theorem syncKernelLeader_synced (c : SmrCluster) : c.syncKernelLeader.syncKernelLeader = c.syncKernelLeader := by
  have htold := syncKernelLeader_told c
  generalize hc' : c.syncKernelLeader = c' at htold
  unfold syncKernelLeader at hc' ⊢
  rw [htold.halted, htold.shared]
  split_ifs with hhalt
  · rfl
  · rw [if_neg hhalt] at hc'
    cases hp : c.kernel.shared.policy with
    | fixed leader => rfl
    | tuned tuner =>
      rw [hp] at hc'
      dsimp only at hc' ⊢
      have hknown : some tuner.leader = c'.kernelLeader := by
        rw [← hc']
        split_ifs with heq
        · exact heq
        · rfl
      rw [if_pos hknown]

/-! ## A call as an event loop -/

/-- no callback has panicked, and the first event is not past `limit` -/
def due (limit : ℕ) (c : SmrCluster) : Bool := !c.kernel.halted.isSome && c.kernel.due limit

def dispatch (ch : Chance) (c : SmrCluster) : SmrCluster := { c with kernel := c.kernel.dispatch ch.harness }

/-- one event, and at the end of its instant the scheduler is told the leader -/
def turn (ch : Chance) (c : SmrCluster) : SmrCluster :=
  if due (c.dispatch ch).kernel.now (c.dispatch ch) then c.dispatch ch else (c.dispatch ch).syncKernelLeader

theorem due_later (a b : ℕ) (c : SmrCluster) (hab : a ≤ b) (h : due a c = true) : due b c = true := by
  unfold due at h ⊢
  obtain ⟨hok, hdue⟩ := Bool.and_eq_true_iff.1 h
  rw [hok, Bool.true_and]
  exact due_mono hab hdue

theorem Told.due (h : Told c c') (limit : ℕ) : due limit c' = due limit c := by
  unfold SmrCluster.due Kernel.due
  rw [h.halted, h.queue]

theorem due_elim (h : due limit c = true) :
    c.kernel.halted = none ∧ ∃ e queue, c.kernel.queue = e :: queue ∧ e.time ≤ limit := by
  obtain ⟨hok, hdue⟩ := Bool.and_eq_true_iff.1 h
  exact ⟨by simpa using hok, due_head hdue⟩

/-- what a call does to the kernel alone -/
theorem runUntil_runs (hr : c.runUntil ch fuel limit = some c') : EventLoop.Runs due (dispatch ch) limit c c' := by
  obtain ⟨k, hk, rfl⟩ := Option.map_eq_some_iff.1 hr
  clear hr
  induction fuel generalizing c with
  | zero =>
    unfold Kernel.runUntil at hk
    split_ifs at hk with hend
    obtain rfl := Option.some.inj hk
    exact .stop (by unfold due; revert hend; cases c.kernel.halted.isSome <;> simp)
  | succ fuel ih =>
    unfold Kernel.runUntil at hk
    split_ifs at hk with hend
    · obtain rfl := Option.some.inj hk
      exact .stop (by unfold due; revert hend; cases c.kernel.halted.isSome <;> simp)
    · refine .turn ?_ (ih (c := c.dispatch ch) hk)
      unfold due
      revert hend
      cases c.kernel.halted.isSome <;> simp

variable (ch) in
/-- the clock stands at the event that was dispatched -/
theorem dispatch_head {e : ScheduledEvent} {queue : List ScheduledEvent} (hq : c.kernel.queue = e :: queue) :
    (c.dispatch ch).kernel.now = e.time ∧ (c.dispatch ch).kernel.dispatched = c.kernel.dispatched ++ [e] := by
  unfold dispatch Kernel.dispatch
  rw [hq]
  exact ⟨(handle_turned ch.harness e _).now, handle_dispatched ch.harness e _⟩

variable (ch) in
theorem turn_told (c : SmrCluster) : Told (c.dispatch ch) (c.turn ch) := by
  unfold turn
  split_ifs
  · exact ⟨rfl, rfl, rfl, rfl, rfl⟩
  · exact syncKernelLeader_told _

theorem turn_sound (hs : Sim.Sound c.kernel) : Sim.Sound (c.turn ch).kernel := by
  have hd : Sim.Sound (c.dispatch ch).kernel := dispatch_sound hs ch.harness
  unfold turn
  split_ifs
  · exact hd
  · exact syncKernelLeader_sound hd

/-- the events of one instant, and the leader told at its end -/
theorem instant_runs (hs : Sim.Sound c.kernel) (hat : c.kernel.halted = none → ∀ e ∈ c.kernel.queue, limit ≤ e.time)
    (hsync : due limit c = true ∨ c.syncKernelLeader = c) (h : EventLoop.Runs due (dispatch ch) limit c c') :
    EventLoop.Runs due (turn ch) limit c c'.syncKernelLeader := by
  induction h with
  | @stop c hd =>
    have hsynced : c.syncKernelLeader = c := hsync.resolve_left (by simp [hd])
    rw [hsynced]
    exact .stop hd
  | @turn c c' hd hrest ih =>
    obtain ⟨hok, e, queue, hq, hle⟩ := due_elim hd
    have htime : e.time = limit := le_antisymm hle (hat hok e (by rw [hq]; exact List.mem_cons_self))
    have hs₁ : Sim.Sound (c.dispatch ch).kernel := dispatch_sound hs ch.harness
    have hnow : (c.dispatch ch).kernel.now = limit := (dispatch_head ch hq).1.trans htime
    refine .turn hd ?_
    by_cases hmore : due limit (c.dispatch ch) = true
    · have hturn : c.turn ch = c.dispatch ch := by
        unfold turn
        rw [hnow, if_pos hmore]
      rw [hturn]
      exact ih hs₁ (fun _ x hx => hnow.symm.trans_le (hs₁.agenda.due x hx)) (.inl hmore)
    · have hturn : c.turn ch = (c.dispatch ch).syncKernelLeader := by
        unfold turn
        rw [hnow, if_neg hmore]
      have hend : due limit (c.dispatch ch) = false := by simpa using hmore
      have hsame : c' = c.dispatch ch := by
        cases hrest with
        | stop => rfl
        | turn hd' => exact absurd hd' hmore
      rw [hturn, hsame]
      exact .stop (by rw [(syncKernelLeader_told _).due]; exact hend)

theorem runs_sound (hs : Sim.Sound c.kernel) (h : EventLoop.Runs due (turn ch) limit c c') : Sim.Sound c'.kernel :=
  h.invariant (I := fun c => Sim.Sound c.kernel) (fun _ hs _ => turn_sound hs) hs

theorem dispatches_sound (hs : Sim.Sound c.kernel) (h : EventLoop.Runs due (dispatch ch) limit c c') :
    Sim.Sound c'.kernel :=
  h.invariant (I := fun c => Sim.Sound c.kernel) (fun _ hs _ => dispatch_sound hs ch.harness) hs

/-- nothing is due before the tick after an instant up to which the loop ran -/
theorem runs_ahead {next : ℕ} (hs : Sim.Sound c'.kernel) (hend : due limit c' = false) (hnext : next ≤ limit + 1)
    (hok : c'.kernel.halted = none) : ∀ e ∈ c'.kernel.queue, next ≤ e.time := by
  intro e he
  have hdue : c'.kernel.due limit = false := by
    unfold due at hend
    rw [hok] at hend
    simpa using hend
  have := not_due hs hdue e he
  omega

/-- the ticks of a tuned cluster's call are its events, instant after instant -/
theorem ticks_runs (hs : Sim.Sound c.kernel) {m : ℕ}
    (hr : (List.range (m + 1)).foldlM (runTick ch fuel c.kernel.now) c = some c') :
    EventLoop.Runs due (turn ch) (advance c.kernel.now m) c.syncKernelLeader c'.syncKernelLeader := by
  have hsync := syncKernelLeader_sound hs
  have htold := syncKernelLeader_told c
  induction m generalizing c' with
  | zero =>
    have hone : c.syncKernelLeader.runUntil ch fuel (advance c.kernel.now 0) = some c' := by
      simpa [runTick] using hr
    refine instant_runs hsync (fun _ e he => ?_) (.inr (syncKernelLeader_synced c)) (runUntil_runs hone)
    rw [htold.queue] at he
    exact (min_le_left _ _).trans (hs.agenda.due e he)
  | succ m ih =>
    rw [List.range_succ, List.foldlM_append] at hr
    obtain ⟨c₁, hc₁, hr⟩ := Option.bind_eq_some_iff.1 hr
    have hlast : c₁.syncKernelLeader.runUntil ch fuel (advance c.kernel.now (m + 1)) = some c' := by
      simpa [runTick] using hr
    have hruns := ih hc₁
    have hs₁ := runs_sound hsync hruns
    have hle : advance c.kernel.now m ≤ advance c.kernel.now (m + 1) := by unfold advance; omega
    refine EventLoop.Runs.trans due_later hle hruns (instant_runs hs₁ (fun hok => ?_) ?_ (runUntil_runs hlast))
    · exact runs_ahead hs₁ hruns.done (by unfold advance; omega) hok
    · exact .inr (syncKernelLeader_synced c₁)

theorem dispatch_fixed {leader : Option NodeId} (hp : c.kernel.shared.policy = .fixed leader) :
    (c.dispatch ch).kernel.shared.policy = .fixed leader := by
  unfold dispatch Kernel.dispatch
  cases hq : c.kernel.queue with
  | nil => exact hp
  | cons e queue =>
    dsimp only
    have ht := handle_turned ch.harness e
      { c.kernel with now := e.time, queue := queue, dispatched := c.kernel.dispatched ++ [e] }
    rcases ht.shared with hsame | ⟨i, nd, rng, r, hnd, hcall, hshared⟩
    · rw [hsame]
      exact hp
    · rw [hshared]
      exact called_fixed hcall hp

/-- under a fixed leader a turn is an event -/
theorem fixed_runs {leader : Option NodeId} (hp : c.kernel.shared.policy = .fixed leader)
    (h : EventLoop.Runs due (dispatch ch) limit c c') :
    EventLoop.Runs due (turn ch) limit c c' ∧ c'.kernel.shared.policy = .fixed leader := by
  induction h with
  | stop hd => exact ⟨.stop hd, hp⟩
  | @turn c c' hd hrest ih =>
    have hkeep : (c.dispatch ch).kernel.shared.policy = .fixed leader := dispatch_fixed hp
    have hturn : c.turn ch = c.dispatch ch := by
      unfold turn
      rw [syncKernelLeader_fixed hkeep, ite_self]
    obtain ⟨hruns, hp'⟩ := ih hkeep
    exact ⟨.turn hd (by rw [hturn]; exact hruns), hp'⟩

/-- **A call is the event loop** up to its target. -/
theorem runFor_runs (hs : Sim.Sound c.kernel) (hr : c.runFor ch fuel ticks = some c') :
    EventLoop.Runs due (turn ch) (advance c.kernel.now ticks) c.syncKernelLeader c' ∧ c'.syncKernelLeader = c' := by
  unfold runFor at hr
  cases hp : c.kernel.shared.policy with
  | fixed leader =>
    rw [hp] at hr
    obtain ⟨hruns, hp'⟩ := fixed_runs hp (runUntil_runs hr)
    rw [syncKernelLeader_fixed hp]
    exact ⟨hruns, syncKernelLeader_fixed hp'⟩
  | tuned tuner =>
    rw [hp] at hr
    obtain ⟨c₁, hc₁, rfl⟩ := Option.map_eq_some_iff.1 hr
    exact ⟨ticks_runs hs hc₁, syncKernelLeader_synced c₁⟩

/-! ## The events of a call -/

/-- the events dispatched from `c` to `c'` -/
def events (c c' : SmrCluster) : List ScheduledEvent := c'.kernel.dispatched.drop c.kernel.dispatched.length

/-- what lies ahead of an instant still does after an event -/
theorem turn_beyond {past : ℕ} (hs : Sim.Sound c.kernel) (hb : ∀ e ∈ c.kernel.queue, past < e.time)
    (hd : due limit c = true) : ∀ e ∈ (c.turn ch).kernel.queue, past < e.time := by
  obtain ⟨-, e, queue, hq, -⟩ := due_elim hd
  have hs₁ : Sim.Sound (c.turn ch).kernel := turn_sound hs
  have hnow : (c.turn ch).kernel.now = e.time := (turn_told ch c).now.trans (dispatch_head ch hq).1
  intro x hx
  have hle := hs₁.agenda.due x hx
  rw [hnow] at hle
  exact (hb e (by rw [hq]; exact List.mem_cons_self)).trans_le hle

theorem runs_beyond {past : ℕ} (hs : Sim.Sound c.kernel) (hb : ∀ e ∈ c.kernel.queue, past < e.time)
    (h : EventLoop.Runs due (turn ch) limit c c') : ∀ e ∈ c'.kernel.queue, past < e.time := by
  have hboth : Sim.Sound c'.kernel ∧ ∀ e ∈ c'.kernel.queue, past < e.time :=
    h.invariant (I := fun c => Sim.Sound c.kernel ∧ ∀ e ∈ c.kernel.queue, past < e.time)
      (fun _ hI hd => ⟨turn_sound hI.1, turn_beyond hI.1 hI.2 hd⟩) ⟨hs, hb⟩
  exact hboth.2

/-- what a run up to `limit` dispatches, and where it leaves the clock -/
structure Passes (limit : ℕ) (c c' : SmrCluster) : Prop where
  dispatched : c'.kernel.dispatched = c.kernel.dispatched ++ events c c'
  early : ∀ e ∈ events c c', e.time ≤ limit
  reached : ∀ e ∈ events c c', e.time ≤ c'.kernel.now
  beyond : ∀ past, (∀ e ∈ c.kernel.queue, past < e.time) → ∀ e ∈ events c c', past < e.time
  clock : c'.kernel.now = c.kernel.now ∨ ∃ e ∈ events c c', e.time = c'.kernel.now
  forward : c.kernel.now ≤ c'.kernel.now

theorem events_of_dispatched {l : List ScheduledEvent} (hl : c'.kernel.dispatched = c.kernel.dispatched ++ l) :
    events c c' = l := by
  unfold events
  rw [hl, List.drop_left]

theorem runs_passes (hs : Sim.Sound c.kernel) (h : EventLoop.Runs due (turn ch) limit c c') : Passes limit c c' := by
  induction h with
  | @stop c hd =>
    have hnone : events c c = [] := events_of_dispatched (List.append_nil _).symm
    constructor <;> simp [hnone]
  | @turn c c' hd hrest ih =>
    obtain ⟨hok, e, queue, hq, hle⟩ := due_elim hd
    have hhead := dispatch_head ch hq
    have htold := turn_told ch c
    have hs₁ : Sim.Sound (c.turn ch).kernel := turn_sound hs
    have hmem : e ∈ c.kernel.queue := by rw [hq]; exact List.mem_cons_self
    have hnow : (c.turn ch).kernel.now = e.time := htold.now.trans hhead.1
    have hdone : (c.turn ch).kernel.dispatched = c.kernel.dispatched ++ [e] := htold.dispatched.trans hhead.2
    obtain ⟨hl, hearly, hreached, hbeyond, hclock, hforward⟩ := ih hs₁
    rw [hnow] at hforward hclock
    have hall : c'.kernel.dispatched = c.kernel.dispatched ++ e :: events (c.turn ch) c' := by
      rw [hl, hdone, List.append_assoc, List.singleton_append]
    have hevents : events c c' = e :: events (c.turn ch) c' := events_of_dispatched hall
    constructor
    · rw [hevents]
      exact hall
    · rw [hevents]
      exact List.forall_mem_cons.2 ⟨hle, hearly⟩
    · rw [hevents]
      exact List.forall_mem_cons.2 ⟨hforward, hreached⟩
    · intro past hpast
      rw [hevents]
      exact List.forall_mem_cons.2 ⟨hpast e hmem, hbeyond past (turn_beyond hs hpast hd)⟩
    · rw [hevents]
      rcases hclock with hclock | ⟨x, hx, hxt⟩
      · exact .inr ⟨e, List.mem_cons_self, hclock.symm⟩
      · exact .inr ⟨x, List.mem_cons_of_mem _ hx, hxt⟩
    · exact (hs.agenda.due e hmem).trans hforward

/-- a run dispatches the first event first -/
theorem runs_first (hs : Sim.Sound c.kernel) {e : ScheduledEvent} {queue : List ScheduledEvent}
    (hq : c.kernel.queue = e :: queue) (hd : due limit c = true) (h : EventLoop.Runs due (turn ch) limit c c') :
    e ∈ events c c' := by
  cases h with
  | stop hd' => rw [hd] at hd'; cases hd'
  | turn _ hrest =>
    have hdone : (c.turn ch).kernel.dispatched = c.kernel.dispatched ++ [e] :=
      (turn_told ch c).dispatched.trans (dispatch_head ch hq).2
    have hall : c'.kernel.dispatched = c.kernel.dispatched ++ e :: events (c.turn ch) c' := by
      rw [(runs_passes (turn_sound hs) hrest).dispatched, hdone, List.append_assoc, List.singleton_append]
    rw [events_of_dispatched hall]
    exact List.mem_cons_self

theorem runs_halted (hhalt : c.kernel.halted ≠ none) (h : EventLoop.Runs due (turn ch) limit c c') : c' = c := by
  cases h with
  | stop hd => rfl
  | turn hd hrest => exact absurd (due_elim hd).1 hhalt

theorem Passes.trans {a b : ℕ} (h₁ : Passes a c c₁) (h₂ : Passes b c₁ c₂) : events c c₂ = events c c₁ ++ events c₁ c₂ := by
  apply events_of_dispatched
  rw [h₂.dispatched, h₁.dispatched, List.append_assoc]

/-- nothing is left within the limit, unless a callback has panicked -/
theorem runs_left (hs : Sim.Sound c.kernel) (h : EventLoop.Runs due (turn ch) limit c c')
    (hok : c'.kernel.halted = none) : ∀ e ∈ c'.kernel.queue, limit < e.time :=
  runs_ahead (runs_sound hs h) h.done le_rfl hok

/-! ## Composing calls -/

/-- two runs end where the one up to the last limit does iff no event falls between their limits -/
theorem gap_iff {a b : ℕ} (hs : Sim.Sound c.kernel) (ha : a ≤ limit) (hb : b ≤ limit)
    (h₁ : EventLoop.Runs due (turn ch) a c c₁) (h₂ : EventLoop.Runs due (turn ch) b c₁ c₂)
    (h : EventLoop.Runs due (turn ch) limit c c') : c₂ = c' ↔ ∀ e ∈ events c c', a < e.time → e.time ≤ b := by
  have hs₁ := runs_sound hs h₁
  have hs₂ := runs_sound hs₁ h₂
  have hrest : EventLoop.Runs due (turn ch) limit c₂ c' := by
    obtain ⟨x, hx, hrest⟩ := EventLoop.Runs.split due_later ha h
    rw [← h₁.unique hx] at hrest
    obtain ⟨y, hy, hrest⟩ := EventLoop.Runs.split due_later hb hrest
    rw [← h₂.unique hy] at hrest
    exact hrest
  have hp₁ := runs_passes hs h₁
  have hp₂ := runs_passes hs₁ h₂
  have hp := runs_passes hs₂ hrest
  constructor
  · rintro rfl e he hlt
    rw [hp₁.trans hp₂] at he
    rcases List.mem_append.1 he with he | he
    · exact absurd (hp₁.early e he) (not_le.2 hlt)
    · exact hp₂.early e he
  · intro hgap
    have hend : due limit c₂ = false := by
      by_contra hne
      have hd : due limit c₂ = true := by simpa using hne
      obtain ⟨hok, e, queue, hq, hle⟩ := due_elim hd
      have hmem : e ∈ c₂.kernel.queue := by rw [hq]; exact List.mem_cons_self
      have hok₁ : c₁.kernel.halted = none := by
        by_contra hhalt
        exact hhalt (by rw [← runs_halted hhalt h₂]; exact hok)
      have hmiss : b < e.time := runs_left hs₁ h₂ hok e hmem
      have hlate : a < e.time := runs_beyond hs₁ (runs_left hs h₁ hok₁) h₂ e hmem
      have he : e ∈ events c c' := by
        have hp' := hp.dispatched
        rw [hp₂.dispatched, hp₁.dispatched, List.append_assoc, List.append_assoc] at hp'
        rw [events_of_dispatched hp']
        exact List.mem_append_right _ (List.mem_append_right _ (runs_first hs₂ hq hd hrest))
      exact absurd (hgap e he hlate) (not_le.2 hmiss)
    exact EventLoop.Runs.unique (.stop hend) hrest

/-- an event that falls due in the last `b` ticks of the window falls due within `b` ticks of its start or of an event of
the first `a` ticks -/
def Timely (a b : ℕ) (c c' : SmrCluster) : Prop :=
  ∀ e ∈ events c c', c.kernel.now + a < e.time →
    e.time ≤ c.kernel.now + b ∨ ∃ e₀ ∈ events c c', e₀.time ≤ c.kernel.now + a ∧ e.time ≤ e₀.time + b

instance (a b : ℕ) (c c' : SmrCluster) : Decidable (Timely a b c c') := by
  unfold Timely; infer_instance

/-- a call returns -/
def Advances (ch : Chance) (ticks : ℕ) (c c' : SmrCluster) : Prop := ∃ fuel, c.runFor ch fuel ticks = some c'

/-- the second call reaches `b` ticks past the last event of the first one, or past the start -/
theorem timely_iff {a b : ℕ} (hs : Sim.Sound c.kernel)
    (h₁ : EventLoop.Runs due (turn ch) (advance c.kernel.now a) c c₁)
    (h : EventLoop.Runs due (turn ch) (advance c.kernel.now (a + b)) c c') :
    Timely a b c c' ↔
      ∀ e ∈ events c c', advance c.kernel.now a < e.time → e.time ≤ advance c₁.kernel.now b := by
  have hs₁ := runs_sound hs h₁
  have hs' := runs_sound hs h
  have hle : advance c.kernel.now a ≤ advance c.kernel.now (a + b) := by unfold advance; omega
  have hrest : EventLoop.Runs due (turn ch) (advance c.kernel.now (a + b)) c₁ c' := by
    obtain ⟨x, hx, hrest⟩ := EventLoop.Runs.split due_later hle h
    rw [← h₁.unique hx] at hrest
    exact hrest
  have hp₁ := runs_passes hs h₁
  have hp := runs_passes hs₁ hrest
  have hevents := hp₁.trans hp
  have hmax : ∀ e ∈ events c c', e.time ≤ MAX := fun e he =>
    ((runs_passes hs h).reached e he).trans hs'.clock
  have hclock : c.kernel.now ≤ MAX := hs.clock
  -- what is left to the second call lies past the first call's target
  have hlate : ∀ e ∈ events c₁ c', advance c.kernel.now a < e.time := by
    by_cases hok : c₁.kernel.halted = none
    · exact hp.beyond _ (runs_left hs h₁ hok)
    · intro e he
      have hnone : events c₁ c₁ = [] := events_of_dispatched (List.append_nil _).symm
      rw [runs_halted hok hrest, hnone] at he
      cases he
  have hmem : ∀ e ∈ events c c₁, e ∈ events c c' := fun e he => by
    rw [hevents]
    exact List.mem_append_left _ he
  constructor
  · intro ht e he hlt
    have hemax := hmax e he
    have hlt' : c.kernel.now + a < e.time := by unfold advance at hlt; omega
    have hforward := hp₁.forward
    rcases ht e he hlt' with hstart | ⟨e₀, he₀, hin, hnear⟩
    · unfold advance
      omega
    · have hfirst : e₀ ∈ events c c₁ := by
        rw [hevents] at he₀
        rcases List.mem_append.1 he₀ with he₀ | he₀
        · exact he₀
        · have hpast := hlate e₀ he₀
          have hemax₀ := hmax e₀ (by rw [hevents]; exact List.mem_append_right _ he₀)
          unfold advance at hpast
          omega
      have hreached := hp₁.reached e₀ hfirst
      unfold advance
      omega
  · intro hgap e he hlt
    have hreach := hgap e he (by unfold advance; omega)
    have hreach' : e.time ≤ c₁.kernel.now + b := hreach.trans (min_le_left _ _)
    rcases hp₁.clock with hsame | ⟨e₀, he₀, hnow⟩
    · rw [hsame] at hreach'
      exact .inl hreach'
    · rw [← hnow] at hreach'
      have hin : e₀.time ≤ c.kernel.now + a := (hp₁.early e₀ he₀).trans (min_le_left _ _)
      exact .inr ⟨e₀, hmem e₀ he₀, hin, hreach'⟩

theorem Told.timely (h : Told c c₁) {a b : ℕ} : Timely a b c₁ c' ↔ Timely a b c c' := by
  unfold Timely events
  rw [h.dispatched, h.now]

theorem composes_iff {a b : ℕ} (hs : Sim.Sound c.kernel) (h₁ : Advances ch a c c₁) (h₂ : Advances ch b c₁ c₂)
    (h : Advances ch (a + b) c c') : c₂ = c' ↔ Timely a b c c' := by
  obtain ⟨fuel₁, h₁⟩ := h₁
  obtain ⟨fuel₂, h₂⟩ := h₂
  obtain ⟨fuel, h⟩ := h
  have hsync := syncKernelLeader_sound hs
  have htold := syncKernelLeader_told c
  have hnow : c.kernel.now ≤ MAX := hs.clock
  obtain ⟨hr₁, hsynced⟩ := runFor_runs hs h₁
  have hs₁ := runs_sound hsync hr₁
  obtain ⟨hr₂, -⟩ := runFor_runs hs₁ h₂
  rw [hsynced] at hr₂
  obtain ⟨hr, -⟩ := runFor_runs hs h
  rw [← htold.now] at hr₁ hr
  rw [← htold.timely, timely_iff hsync hr₁ hr]
  -- the first call leaves the clock at its target or before it
  have hreach : c₁.kernel.now ≤ advance c.syncKernelLeader.kernel.now a := by
    have hp₁ := runs_passes hsync hr₁
    rcases hp₁.clock with hsame | ⟨e, he, hat⟩
    · rw [hsame]
      exact le_advance (htold.now ▸ hnow) a
    · exact hat ▸ hp₁.early e he
  apply gap_iff hsync _ _ hr₁ hr₂ hr
  · unfold advance
    omega
  · unfold advance at hreach ⊢
    omega

/-! ## Repeating a call -/

/-- calls that return, one after another -/
def Repeats (ch : Chance) : List ℕ → SmrCluster → SmrCluster → Prop
  | [], c, c' => c = c'
  | ticks :: rest, c, c' => ∃ c₁, Advances ch ticks c c₁ ∧ Repeats ch rest c₁ c'

theorem advances_sound (hs : Sim.Sound c.kernel) (h : Advances ch ticks c c') :
    Sim.Sound c'.kernel ∧ ∀ e ∈ c.kernel.dispatched, e ∈ c'.kernel.dispatched := by
  obtain ⟨fuel, h⟩ := h
  have hsync := syncKernelLeader_sound hs
  have hr := (runFor_runs hs h).1
  refine ⟨runs_sound hsync hr, fun e he => ?_⟩
  rw [(runs_passes hsync hr).dispatched, (syncKernelLeader_told c).dispatched]
  exact List.mem_append_left _ he

theorem repeats_keeps {calls : List ℕ} (hs : Sim.Sound c.kernel) (h : Repeats ch calls c c') :
    ∀ e ∈ c.kernel.dispatched, e ∈ c'.kernel.dispatched := by
  induction calls generalizing c with
  | nil =>
    obtain rfl := h
    exact fun e he => he
  | cons ticks calls ih =>
    obtain ⟨c₁, h₁, h⟩ := h
    have hstep := advances_sound hs h₁
    exact fun e he => ih hstep.1 h e (hstep.2 e he)

/-- the first event is dispatched by the first call that alone reaches it, and the others do nothing -/
theorem repeats_iff {calls : List ℕ} {e : ScheduledEvent} {queue : List ScheduledEvent} (hs : Sim.Sound c.kernel)
    (hok : c.kernel.halted = none) (hq : c.kernel.queue = e :: queue) (h : Repeats ch calls c c') :
    e ∈ c'.kernel.dispatched ↔ ∃ ticks ∈ calls, e.time ≤ c.kernel.now + ticks := by
  have hmem : e ∈ c.kernel.queue := by rw [hq]; exact List.mem_cons_self
  have hmax := hs.times e hmem
  induction calls generalizing c with
  | nil =>
    obtain rfl := h
    have hnot : e ∉ c.kernel.dispatched := by
      intro hdone
      have hbefore := hs.agenda.apart e hdone e hmem
      unfold Agenda.Entry.Before at hbefore
      omega
    simp [hnot]
  | cons ticks calls ih =>
    obtain ⟨c₁, ⟨fuel, h₁⟩, h⟩ := h
    have hsync := syncKernelLeader_sound hs
    have htold := syncKernelLeader_told c
    have hr := (runFor_runs hs h₁).1
    have hq' : c.syncKernelLeader.kernel.queue = e :: queue := htold.queue.trans hq
    by_cases hreach : e.time ≤ c.kernel.now + ticks
    · have hdue : due (advance c.kernel.now ticks) c.syncKernelLeader = true := by
        rw [htold.due, due, hok, Kernel.due, hq]
        simp only [Option.isSome_none, Bool.not_false, Bool.true_and, decide_eq_true_eq]
        exact le_min hreach hmax
      have hdone : e ∈ c₁.kernel.dispatched := by
        rw [(runs_passes hsync hr).dispatched]
        exact List.mem_append_right _ (runs_first hsync hq' hdue hr)
      have hlast := repeats_keeps (runs_sound hsync hr) h e hdone
      exact iff_of_true hlast ⟨ticks, List.mem_cons_self, hreach⟩
    · have hnot : due (advance c.kernel.now ticks) c.syncKernelLeader = false := by
        rw [htold.due, due, hok, Kernel.due, hq]
        simp only [Option.isSome_none, Bool.not_false, Bool.true_and, decide_eq_false_iff_not]
        exact fun hle => hreach (hle.trans (min_le_left _ _))
      obtain rfl := EventLoop.Runs.unique (.stop hnot) hr
      have hstay := ih hsync (htold.halted.trans hok) hq' h (by rw [hq']; exact List.mem_cons_self)
      refine Iff.trans hstay ?_
      rw [htold.now]
      simp [hreach]

/-! ## Calls return -/

theorem runUntil_more {k k' : Kernel SmrNode Shared SmrMsg} {more : ℕ}
    (h : k.runUntil ch.harness limit fuel = some k') : k.runUntil ch.harness limit (fuel + more) = some k' := by
  induction fuel generalizing k with
  | zero =>
    unfold Kernel.runUntil at h
    split_ifs at h with hend
    cases more with
    | zero =>
      unfold Kernel.runUntil
      rw [if_pos hend, h]
    | succ more =>
      rw [Nat.zero_add, Kernel.runUntil, if_pos hend, h]
  | succ fuel ih =>
    rw [Nat.succ_add, Kernel.runUntil]
    rw [Kernel.runUntil] at h
    split_ifs at h ⊢ with hend
    · exact h
    · exact ih h

theorem runTicks_more {start more : ℕ} {ticks : List ℕ} (h : ticks.foldlM (runTick ch fuel start) c = some c') :
    ticks.foldlM (runTick ch (fuel + more) start) c = some c' := by
  induction ticks generalizing c with
  | nil => exact h
  | cons tick ticks ih =>
    rw [List.foldlM_cons] at h ⊢
    obtain ⟨c₁, h₁, h⟩ := Option.bind_eq_some_iff.1 h
    obtain ⟨k, hk, hc₁⟩ := Option.map_eq_some_iff.1 h₁
    have hone : runTick ch (fuel + more) start c tick = some c₁ :=
      Option.map_eq_some_iff.2 ⟨k, runUntil_more hk, hc₁⟩
    rw [hone]
    exact ih h

variable (ch) in
/-- a call up to an instant before the end of the clock returns -/
theorem runUntil_some (hs : Sim.Sound c.kernel) (hlimit : limit < MAX) :
    ∃ fuel c', c.runUntil ch fuel limit = some c' ∧ Sim.Sound c'.kernel := by
  obtain ⟨fuel, hk⟩ := runUntil_returns ch.harness hs hlimit
  obtain ⟨k, hk⟩ := Option.isSome_iff_exists.1 hk
  have hr : c.runUntil ch fuel limit = some { c with kernel := k } := by
    unfold runUntil
    rw [hk]
    rfl
  exact ⟨fuel, _, hr, dispatches_sound hs (runUntil_runs hr)⟩

variable (ch) in
theorem runTicks_some {start : ℕ} (hs : Sim.Sound c.kernel) (ticks : List ℕ)
    (hlimit : ∀ tick ∈ ticks, advance start tick < MAX) :
    ∃ fuel c', ticks.foldlM (runTick ch fuel start) c = some c' := by
  induction ticks generalizing c with
  | nil => exact ⟨0, c, rfl⟩
  | cons tick ticks ih =>
    obtain ⟨fuel₁, c₁, h₁, hs₁⟩ := runUntil_some ch (syncKernelLeader_sound hs) (hlimit tick List.mem_cons_self)
    obtain ⟨fuel₂, c', h⟩ := ih hs₁ fun tick ht => hlimit tick (List.mem_cons_of_mem _ ht)
    have hone : runTick ch (fuel₁ + fuel₂) start c tick = some c₁ := by
      obtain ⟨k, hk, hc₁⟩ := Option.map_eq_some_iff.1 h₁
      exact Option.map_eq_some_iff.2 ⟨k, runUntil_more hk, hc₁⟩
    refine ⟨fuel₁ + fuel₂, c', ?_⟩
    rw [List.foldlM_cons, hone, Nat.add_comm fuel₁]
    exact runTicks_more h

/-- a call returns whose target is before the end of the clock -/
theorem advances_of_lt (hs : Sim.Sound c.kernel) (hlimit : c.kernel.now + ticks < MAX) :
    ∃ c', Advances ch ticks c c' := by
  have hbefore : ∀ tick ≤ ticks, advance c.kernel.now tick < MAX := fun tick ht => by unfold advance; omega
  cases hp : c.kernel.shared.policy with
  | fixed leader =>
    obtain ⟨fuel, c', h, -⟩ := runUntil_some ch hs (hbefore ticks le_rfl)
    refine ⟨c', fuel, ?_⟩
    rw [runFor, hp]
    exact h
  | tuned tuner =>
    obtain ⟨fuel, c', h⟩ := runTicks_some ch hs (List.range (ticks + 1)) fun tick ht =>
      hbefore tick (Nat.lt_succ_iff.1 (List.mem_range.1 ht))
    refine ⟨c'.syncKernelLeader, fuel, ?_⟩
    rw [runFor, hp]
    exact Option.map_eq_some_iff.2 ⟨c', h, rfl⟩

/-- **Advancing composes exactly when the clock keeps up.** In every state that a program reaches: two calls leave what
the joint call does iff each of its events is timely; calls repeated dispatch the first event iff one alone reaches it;
and a call returns whose target is before the end of the clock. -/
theorem advances_compose_iff (s : Smr.Setup) (ch : Chance) (fuel : ℕ) (prog : List DriverOp) (c : SmrCluster)
    (hr : (ofSetup s).drive ch fuel prog = some c) :
    (∀ a b c₁ c₂ c', Advances ch a c c₁ → Advances ch b c₁ c₂ → Advances ch (a + b) c c' →
      (c₂ = c' ↔ Timely a b c c')) ∧
    (∀ calls e queue c', c.kernel.halted = none → c.kernel.queue = e :: queue → Repeats ch calls c c' →
      (e ∈ c'.kernel.dispatched ↔ ∃ ticks ∈ calls, e.time ≤ c.kernel.now + ticks)) ∧
    ∀ ticks, c.kernel.now + ticks < MAX → ∃ c', Advances ch ticks c c' := by
  have hs : Sim.Sound c.kernel := (faithful_drive hr).sound
  exact ⟨fun a b c₁ c₂ c' => composes_iff hs, fun calls e queue c' => repeats_iff hs,
    fun ticks => advances_of_lt hs⟩

/-- every message takes four ticks -/
def slow : Chance := ⟨fun _ _ => .deliver 4, fun _ => drawing 1⟩

/-- A write is submitted. Its messages arrive at the fifth tick and their replies at the ninth: a call of five ticks and
one of four do what a call of nine does, and dispatch the kickoff at the first tick. -/
theorem advances_compose_iff_submitted :
    ∃ c c₁ c₂ c' e, (ofSetup (.leader 3 (some 0))).drive slow 100 [.submit 0 (.put 0 1 0 10)] = some c ∧
      Advances slow 5 c c₁ ∧ Advances slow 4 c₁ c₂ ∧ Advances slow (5 + 4) c c' ∧ Timely 5 4 c c' ∧ c₂ = c' ∧
      c.kernel.queue.head? = some e ∧ e ∈ c₂.kernel.dispatched := by
  have hrun : (((ofSetup (.leader 3 (some 0))).drive slow 100 [.submit 0 (.put 0 1 0 10)]).bind fun c =>
      (c.runFor slow 100 5).bind fun c₁ => (c₁.runFor slow 100 4).bind fun c₂ => (c.runFor slow 100 (5 + 4)).bind fun c' =>
      c.kernel.queue.head?.map fun e =>
        decide (Timely 5 4 c c' ∧ c.kernel.halted.isNone ∧ e.time ≤ c.kernel.now + 5)) = some true := by
    decide +kernel
  obtain ⟨c, hc, hrun⟩ := Option.bind_eq_some_iff.1 hrun
  obtain ⟨c₁, hc₁, hrun⟩ := Option.bind_eq_some_iff.1 hrun
  obtain ⟨c₂, hc₂, hrun⟩ := Option.bind_eq_some_iff.1 hrun
  obtain ⟨c', hc', hrun⟩ := Option.bind_eq_some_iff.1 hrun
  obtain ⟨e, he, hrun⟩ := Option.map_eq_some_iff.1 hrun
  obtain ⟨htimely, hrunning, hdue⟩ := of_decide_eq_true hrun
  obtain ⟨queue, hqueue⟩ := List.head?_eq_some_iff.1 he
  obtain ⟨hcompose, hrepeat, -⟩ := advances_compose_iff (.leader 3 (some 0)) slow 100 [.submit 0 (.put 0 1 0 10)] c hc
  have hrepeats : Repeats slow [5, 4] c c₂ := ⟨c₁, ⟨100, hc₁⟩, c₂, ⟨100, hc₂⟩, rfl⟩
  exact ⟨c, c₁, c₂, c', e, hc, ⟨100, hc₁⟩, ⟨100, hc₂⟩, ⟨100, hc'⟩, htimely,
    (hcompose 5 4 c₁ c₂ c' ⟨100, hc₁⟩ ⟨100, hc₂⟩ ⟨100, hc'⟩).2 htimely, he,
    (hrepeat [5, 4] e queue c₂ (Option.isNone_iff_eq_none.1 hrunning) hqueue hrepeats).2 ⟨5, List.mem_cons_self, hdue⟩⟩

/-- A write is submitted and its messages arrive at the fifth tick. The joint call of six ticks delivers them and two
calls of three do not; nor do three, though their ticks sum past the arrival. -/
theorem advances_stall :
    ∃ c c₁ c₂ c₃ c' e, (ofSetup (.leader 3 (some 0))).drive slow 100 [.submit 0 (.put 0 1 0 10)] = some c ∧
      Advances slow 3 c c₁ ∧ Advances slow 3 c₁ c₂ ∧ Advances slow (3 + 3) c c' ∧ c₂ ≠ c' ∧
      c₁.kernel.queue.head? = some e ∧ Repeats slow [3, 3] c₁ c₃ ∧ e.time < c₁.kernel.now + (3 + 3) ∧
      e ∉ c₃.kernel.dispatched := by
  have hrun : (((ofSetup (.leader 3 (some 0))).drive slow 100 [.submit 0 (.put 0 1 0 10)]).bind fun c =>
      (c.runFor slow 100 3).bind fun c₁ => (c₁.runFor slow 100 3).bind fun c₂ => (c₂.runFor slow 100 3).bind fun c₃ =>
      (c.runFor slow 100 6).bind fun c' => c₁.kernel.queue.head?.map fun e =>
        decide (c₂.kernel.now ≠ c'.kernel.now ∧ e.time < c₁.kernel.now + (3 + 3) ∧ e ∉ c₃.kernel.dispatched)) =
      some true := by
    decide +kernel
  obtain ⟨c, hc, hrun⟩ := Option.bind_eq_some_iff.1 hrun
  obtain ⟨c₁, hc₁, hrun⟩ := Option.bind_eq_some_iff.1 hrun
  obtain ⟨c₂, hc₂, hrun⟩ := Option.bind_eq_some_iff.1 hrun
  obtain ⟨c₃, hc₃, hrun⟩ := Option.bind_eq_some_iff.1 hrun
  obtain ⟨c', hc', hrun⟩ := Option.bind_eq_some_iff.1 hrun
  obtain ⟨e, he, hrun⟩ := Option.map_eq_some_iff.1 hrun
  have hfacts := of_decide_eq_true hrun
  exact ⟨c, c₁, c₂, c₃, c', e, hc, ⟨100, hc₁⟩, ⟨100, hc₂⟩, ⟨100, hc'⟩, fun heq => hfacts.1 (by rw [heq]), he,
    ⟨c₂, ⟨100, hc₂⟩, c₃, ⟨100, hc₃⟩, rfl⟩, hfacts.2.1, hfacts.2.2⟩

end SmrCluster

end Queso
