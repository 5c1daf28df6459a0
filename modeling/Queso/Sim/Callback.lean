/-
What a step does to the pending timers.

`env_event` refines `World.env_cases`: it keeps track of where a callback comes from (`Arises`), of every timer that was
pending before it, of the clock, and of the panic a callback may raise. `env_callback` is its form for a step that does
not panic.

A pending timer is lost only at a crashed node, at an id that hosts none, or where the environment drops it.
-/
import Queso.Sim.World

namespace Queso

/-- a timer `id` of node `i` is among the timers `T` -/
def Pends (T : List PendingTimer) (i : NodeId) (id : TimerId) : Prop := ∃ t ∈ T, t.node = i ∧ t.id = id

/-- what a callback is called with -/
inductive Stimulus (M : Type) where
  | message (src : NodeId) (payload : M)
  | timer (id : TimerId)
  | restart

variable {N G M R : Type}

def Behaviour.respond (b : Behaviour N G M R) (ctx : Ctx R) : Stimulus M → N → G → Outcome N G M
  | .message src payload => b.onMessage ctx src payload
  | .timer id => b.onTimer ctx id
  | .restart => b.onRestart ctx

namespace World

/-- the decision `op` calls node `i` with `x`, and leaves the timers `left` pending -/
inductive Arises (w : World N G M) : EnvOp R → NodeId → Stimulus M → R → List PendingTimer → Prop where
  | message {k rng src dst payload} (hk : w.net[k]? = some ⟨src, dst, payload⟩) (hup : w.crashed dst = false) :
      Arises w (.deliver k rng) dst (.message src payload) rng w.timers
  | timer {k rng t} (hk : w.timers[k]? = some t) (hup : w.crashed t.node = false) (hdue : t.fireAt ≤ w.now) :
      Arises w (.fire k rng) t.node (.timer t.id) rng (w.timers.eraseIdx k)
  | restart {i rng} : Arises w (.restart i rng) i .restart rng w.timers

/-- the callback of node `i` on `x` was taken over -/
structure Callback (b : Behaviour N G M R) (w : World N G M) (i : NodeId) (x : Stimulus M) (rng : R)
    (left : List PendingTimer) (nd nd' : N) (fx : List (Effect M)) (w' : World N G M) : Prop where
  node : w.nodes i = some nd
  outcome : b.respond ⟨i, w.now, rng⟩ x nd w.shared = .ok (nd', w'.shared, fx)
  nodes : w'.nodes = Function.update w.nodes i (some nd')
  timers : w'.timers = left ++ timersOf i w.now fx
  sent : sentOf w'.trace = sentOf w.trace ++ sendsOf i fx
  now : w'.now = w.now
  crashed : w'.crashed = Function.update w.crashed i false
  panicked : w'.panicked = none

/-- the callback of node `i` on `x` panicked -/
structure Broke (b : Behaviour N G M R) (w : World N G M) (i : NodeId) (x : Stimulus M) (rng : R)
    (left : List PendingTimer) (nd : N) (e : Panic) (w' : World N G M) : Prop where
  outcome : b.respond ⟨i, w.now, rng⟩ x nd w.shared = .error e
  panicked : w'.panicked = some e
  nodes : w'.nodes = w.nodes
  timers : w'.timers = left
  sent : sentOf w'.trace = sentOf w.trace
  now : w'.now = w.now

/-- no callback was taken over -/
structure Quiet (w : World N G M) (op : EnvOp R) (w' : World N G M) : Prop where
  nodes : w'.nodes = w.nodes
  shared : w'.shared = w.shared
  sent : sentOf w'.trace = sentOf w.trace
  panicked : w'.panicked = w.panicked
  now : w.now ≤ w'.now
  crashed : ∀ i, w'.crashed i = false → w.crashed i = false ∨ w.nodes i = none
  up : ∀ i, w.crashed i = false → w'.crashed i = false ∨ op = .crash i
  kept : ∀ t ∈ w.timers, t ∈ w'.timers ∨ w.crashed t.node = true ∨ w.nodes t.node = none ∨ ∃ k, op = .dropTimer k
  timers : ∀ t ∈ w'.timers, t ∈ w.timers
  sublist : (∀ k, op ≠ .dupTimer k) → w'.timers.Sublist w.timers

theorem Quiet.refl (w : World N G M) (op : EnvOp R) : Quiet w op w :=
  ⟨rfl, rfl, rfl, rfl, le_rfl, fun _ h => .inl h, fun _ h => .inl h, fun _ h => .inl h, fun _ h => h,
    fun _ => List.Sublist.refl _⟩

/-- a timer other than the one that fired is left -/
theorem mem_left {w : World N G M} {k : ℕ} {t t' : PendingTimer} (hk : w.timers[k]? = some t') (ht : t ∈ w.timers) :
    t = t' ∨ t ∈ w.timers.eraseIdx k := by
  obtain ⟨m, hm⟩ := List.mem_iff_getElem?.1 ht
  by_cases hmk : m = k
  · subst hmk
    exact .inl (Option.some.inj (hm.symm.trans hk))
  · exact .inr (List.mem_eraseIdx_iff_getElem?.2 ⟨m, hmk, hm⟩)

/-- what a callback leaves was pending, and what was pending is left unless it fired -/
theorem Arises.left {w : World N G M} {op : EnvOp R} {i : NodeId} {x : Stimulus M} {rng : R}
    {left : List PendingTimer} (h : Arises w op i x rng left) :
    left.Sublist w.timers ∧
      ∀ t ∈ w.timers, t ∈ left ∨ t.node = i ∧ x = .timer t.id ∧ w.crashed i = false ∧ t.fireAt ≤ w.now := by
  cases h with
  | message hk hup => exact ⟨List.Sublist.refl _, fun t ht => .inl ht⟩
  | @timer k rng t' hk hup hdue =>
    refine ⟨List.eraseIdx_sublist _ _, fun t ht => ?_⟩
    rcases mem_left hk ht with rfl | hleft
    · exact .inr ⟨rfl, rfl, hup, hdue⟩
    · exact .inl hleft
  | restart => exact ⟨List.Sublist.refl _, fun t ht => .inl ht⟩

/-- the timers that a callback consumes: none, or the one that fired -/
theorem Arises.left_perm {w : World N G M} {op : EnvOp R} {i : NodeId} {x : Stimulus M} {rng : R}
    {left : List PendingTimer} (h : Arises w op i x rng left) :
    ∃ gone, w.timers.Perm (gone ++ left) ∧
      (gone = [] ∧ (∀ id, x ≠ .timer id) ∨
        ∃ t, gone = [t] ∧ t.node = i ∧ x = .timer t.id ∧ t.fireAt ≤ w.now ∧ w.crashed i = false) := by
  cases h with
  | message hk hup => exact ⟨[], List.Perm.refl _, .inl ⟨rfl, by simp⟩⟩
  | @timer k rng t hk hup hdue =>
    obtain ⟨hlt, rfl⟩ := List.getElem?_eq_some_iff.1 hk
    exact ⟨[w.timers[k]], (List.getElem_cons_eraseIdx_perm hlt).symm, .inr ⟨_, rfl, rfl, rfl, hdue, hup⟩⟩
  | restart => exact ⟨[], List.Perm.refl _, .inl ⟨rfl, by simp⟩⟩

/-- an environment's step that calls a node performs what the callback answers -/
theorem Arises.perform {b : Behaviour N G M R} {w : World N G M} {op : EnvOp R} {i : NodeId} {x : Stimulus M} {rng : R}
    {left : List PendingTimer} {nd : N} (h : Arises w op i x rng left) (hp : w.panicked = none)
    (hnd : w.nodes i = some nd) :
    ∃ w₀ : World N G M, w.env b op = w₀.perform i (b.respond ⟨i, w.now, rng⟩ x nd w.shared) ∧
      w₀.nodes = w.nodes ∧ w₀.timers = left ∧ w₀.now = w.now ∧ sentOf w₀.trace = sentOf w.trace ∧
      w₀.crashed = Function.update w.crashed i false ∧ w₀.panicked = none := by
  have hnot : ¬ w.panicked.isSome = true := by simp [hp]
  have hsame : w.crashed i = false → w.crashed = Function.update w.crashed i false := by
    intro hi
    funext j
    by_cases hj : j = i
    · subst hj; simpa using hi
    · simp [hj]
  cases h with
  | @message k rng src dst payload hk hup =>
    refine ⟨{ w with net := w.net.eraseIdx k, trace := w.trace ++ [TraceEvent.deliver ⟨src, i, payload⟩] }, ?_, rfl,
      rfl, rfl, by simp, hsame hup, hp⟩
    unfold env dispatchMessage
    rw [if_neg hnot]
    simp only [hk, hup, Bool.false_eq_true, if_false, hnd]
    rfl
  | @timer k rng t hk hup hdue =>
    refine ⟨{ w with timers := w.timers.eraseIdx k }, ?_, rfl, rfl, rfl, rfl, hsame hup, hp⟩
    unfold env dispatchTimer
    rw [if_neg hnot]
    simp only [hk, if_pos hdue, hup, Bool.false_eq_true, if_false, hnd]
    rfl
  | restart =>
    refine ⟨{ w with crashed := Function.update w.crashed i false }, ?_, rfl, rfl, rfl, rfl, rfl, hp⟩
    unfold env restartNode
    rw [if_neg hnot]
    simp only [hnd]
    rfl

/-- an environment's step that calls a node panics or is taken over -/
theorem Arises.event {b : Behaviour N G M R} {w : World N G M} {op : EnvOp R} {i : NodeId} {x : Stimulus M} {rng : R}
    {left : List PendingTimer} {nd : N} (h : Arises w op i x rng left) (hp : w.panicked = none)
    (hnd : w.nodes i = some nd) :
    (∃ e, Broke b w i x rng left nd e (w.env b op)) ∨ ∃ nd' fx, Callback b w i x rng left nd nd' fx (w.env b op) := by
  obtain ⟨w₀, hw, hnodes, htimers, hnow, hsent, hcrashed, hok⟩ := h.perform (b := b) hp hnd
  rw [hw]
  cases ho : b.respond ⟨i, w.now, rng⟩ x nd w.shared with
  | error e =>
    exact .inl ⟨e, { outcome := ho, panicked := rfl, nodes := hnodes, timers := htimers, sent := hsent, now := hnow }⟩
  | ok r =>
    obtain ⟨nd', g, fx⟩ := r
    exact .inr ⟨nd', fx,
      { node := hnd
        outcome := ho
        nodes := by rw [← hnodes]; rfl
        timers := by rw [← htimers, ← hnow]; rfl
        sent := by
          show sentOf (w₀.trace ++ (sendsOf i fx).map .send) = _
          rw [sentOf_append, sentOf_sends, hsent]
        now := hnow
        crashed := hcrashed
        panicked := hok }⟩

/-- a step that calls a node, which panics or is taken over -/
def Event (b : Behaviour N G M R) (w : World N G M) (op : EnvOp R) : Prop :=
  ∃ i x rng left nd, Arises w op i x rng left ∧ w.nodes i = some nd ∧
    ((∃ e, Broke b w i x rng left nd e (w.env b op)) ∨ ∃ nd' fx, Callback b w i x rng left nd nd' fx (w.env b op))

theorem deliver_event (b : Behaviour N G M R) {w : World N G M} (hp : w.panicked = none) (k : ℕ) (rng : R) :
    Quiet w (.deliver k rng) (w.env b (.deliver k rng)) ∨ Event b w (.deliver k rng) := by
  have hnot : ¬ w.panicked.isSome = true := by simp [hp]
  cases hk : w.net[k]? with
  | none =>
    have hw : w.env b (.deliver k rng) = w := by unfold env; rw [if_neg hnot]; simp only [hk]
    rw [hw]
    exact .inl (Quiet.refl w _)
  | some e =>
    have hw : w.env b (.deliver k rng) = { w with net := w.net.eraseIdx k }.dispatchMessage b e rng := by
      unfold env; rw [if_neg hnot]; simp only [hk]
    unfold dispatchMessage at hw
    split_ifs at hw with hup
    · rw [hw]
      exact .inl { Quiet.refl w _ with }
    · cases hn : w.nodes e.dst with
      | none =>
        simp only [hn] at hw
        rw [hw]
        exact .inl { Quiet.refl w _ with }
      | some nd =>
        simp only [hn] at hw
        have hup' : w.crashed e.dst = false := by simpa using hup
        have harises : Arises w (.deliver k rng) e.dst (.message e.src e.payload) rng w.timers := .message hk hup'
        exact .inr ⟨_, _, _, _, nd, harises, hn, harises.event hp hn⟩

theorem fire_event (b : Behaviour N G M R) {w : World N G M} (hp : w.panicked = none) (k : ℕ) (rng : R) :
    Quiet w (.fire k rng) (w.env b (.fire k rng)) ∨ Event b w (.fire k rng) := by
  have hnot : ¬ w.panicked.isSome = true := by simp [hp]
  cases hk : w.timers[k]? with
  | none =>
    have hw : w.env b (.fire k rng) = w := by unfold env; rw [if_neg hnot]; simp only [hk]
    rw [hw]
    exact .inl (Quiet.refl w _)
  | some t =>
    by_cases hdue : t.fireAt ≤ w.now
    swap
    · have hw : w.env b (.fire k rng) = w := by
        unfold env; rw [if_neg hnot]; simp only [hk, if_neg hdue]
      rw [hw]
      exact .inl (Quiet.refl w _)
    have hw : w.env b (.fire k rng) = { w with timers := w.timers.eraseIdx k }.dispatchTimer b t rng := by
      unfold env; rw [if_neg hnot]; simp only [hk, if_pos hdue]
    -- a timer that nobody takes is lost
    have hlost : w.crashed t.node = true ∨ w.nodes t.node = none →
        Quiet w (.fire k rng : EnvOp R) { w with timers := w.timers.eraseIdx k } := by
      intro hnobody
      refine
        { Quiet.refl w (.fire k rng : EnvOp R) with
          kept := fun x hx => ?_
          timers := fun _ h => (List.eraseIdx_sublist _ _).subset h
          sublist := fun _ => List.eraseIdx_sublist _ _ }
      rcases mem_left hk hx with rfl | hleft
      · exact .inr (hnobody.imp_right fun hn => .inl hn)
      · exact .inl hleft
    unfold dispatchTimer at hw
    split_ifs at hw with hup
    · rw [hw]
      exact .inl (hlost (.inl hup))
    · cases hn : w.nodes t.node with
      | none =>
        simp only [hn] at hw
        rw [hw]
        exact .inl (hlost (.inr hn))
      | some nd =>
        simp only [hn] at hw
        have hup' : w.crashed t.node = false := by simpa using hup
        have harises : Arises w (.fire k rng) t.node (.timer t.id) rng (w.timers.eraseIdx k) := .timer hk hup' hdue
        exact .inr ⟨_, _, _, _, nd, harises, hn, harises.event hp hn⟩

theorem restart_event (b : Behaviour N G M R) {w : World N G M} (hp : w.panicked = none) (i : NodeId) (rng : R) :
    Quiet w (.restart i rng) (w.env b (.restart i rng)) ∨ Event b w (.restart i rng) := by
  have hnot : ¬ w.panicked.isSome = true := by simp [hp]
  have hw : w.env b (.restart i rng) = w.restartNode b i rng := by unfold env; rw [if_neg hnot]
  unfold restartNode at hw
  cases hn : w.nodes i with
  | none =>
    simp only [hn] at hw
    rw [hw]
    refine .inl { Quiet.refl w (.restart i rng : EnvOp R) with crashed := fun j hj => ?_, up := fun j hj => .inl ?_ }
    · by_cases hji : j = i
      · subst hji; exact .inr hn
      · exact .inl (by simpa [hji] using hj)
    · by_cases hji : j = i
      · subst hji; simp
      · simpa [hji] using hj
  | some nd =>
    simp only [hn] at hw
    exact .inr ⟨_, _, _, _, nd, .restart, hn, Arises.event .restart hp hn⟩

/-- **All an environment step can do**, with the timers: nothing, or one callback -/
theorem env_event (b : Behaviour N G M R) (w : World N G M) (op : EnvOp R) :
    Quiet w op (w.env b op) ∨ w.panicked = none ∧ Event b w op := by
  cases hp : w.panicked with
  | some e =>
    have hw : w.env b op = w := by unfold env; rw [hp]; rfl
    rw [hw]
    exact .inl (Quiet.refl w op)
  | none =>
    have hnot : ¬ w.panicked.isSome = true := by simp [hp]
    cases op with
    | tick d =>
      left
      unfold env
      rw [if_neg hnot]
      exact { Quiet.refl w (.tick d : EnvOp R) with now := Nat.le_add_right _ _ }
    | deliver k rng => exact (deliver_event b hp k rng).imp_right fun h => ⟨rfl, h⟩
    | drop k =>
      left
      unfold env
      rw [if_neg hnot]
      exact { Quiet.refl w (.drop k : EnvOp R) with }
    | dup k =>
      left
      unfold env
      rw [if_neg hnot]
      dsimp only
      split
      · exact Quiet.refl w _
      · exact { Quiet.refl w (.dup k : EnvOp R) with }
    | fire k rng => exact (fire_event b hp k rng).imp_right fun h => ⟨rfl, h⟩
    | dropTimer k =>
      left
      unfold env
      rw [if_neg hnot]
      exact
        { Quiet.refl w (.dropTimer k : EnvOp R) with
          kept := fun _ _ => .inr (.inr (.inr ⟨k, rfl⟩))
          timers := fun _ h => (List.eraseIdx_sublist _ _).subset h
          sublist := fun _ => List.eraseIdx_sublist _ _ }
    | dupTimer k =>
      left
      unfold env
      rw [if_neg hnot]
      dsimp only
      split
      · exact Quiet.refl w _
      · rename_i t hk
        refine
          { Quiet.refl w (.dupTimer k : EnvOp R) with
            kept := fun _ h => .inl (List.mem_append_left _ h)
            timers := fun x hx => ?_
            sublist := fun hd => absurd rfl (hd k) }
        rcases List.mem_append.1 hx with hx | hx
        · exact hx
        · rw [List.mem_singleton.1 hx]; exact List.mem_of_getElem? hk
    | crash i =>
      left
      unfold env
      rw [if_neg hnot]
      refine { Quiet.refl w (.crash i : EnvOp R) with crashed := fun j hj => .inl ?_, up := fun j hj => ?_ }
      · by_cases hji : j = i
        · subst hji; simp at hj
        · simpa [hji] using hj
      · by_cases hji : j = i
        · exact .inr (by rw [hji])
        · exact .inl (by simpa [hji] using hj)
    | restart i rng => exact (restart_event b hp i rng).imp_right fun h => ⟨rfl, h⟩

/-- a step that does not panic, with the timers -/
theorem env_callback (b : Behaviour N G M R) {w : World N G M} {op : EnvOp R} (hok : (w.env b op).panicked = none) :
    Quiet w op (w.env b op) ∨
    ∃ i x rng left nd nd' fx, Arises w op i x rng left ∧ Callback b w i x rng left nd nd' fx (w.env b op) := by
  rcases env_event b w op with hquiet | ⟨-, i, x, rng, left, nd, harises, -, ⟨e, he⟩ | ⟨nd', fx, hcb⟩⟩
  · exact .inl hquiet
  · exact absurd (hok.symm.trans he.panicked) (by simp)
  · exact .inr ⟨i, x, rng, left, nd, nd', fx, harises, hcb⟩

/-- **A pending timer of a live node** stays pending, or fires there. -/
theorem env_timer (b : Behaviour N G M R) {w : World N G M} {op : EnvOp R} {t : PendingTimer} {nd : N}
    (ht : t ∈ w.timers) (hnd : w.nodes t.node = some nd) (hup : w.crashed t.node = false)
    (hop : ∀ k, op ≠ .dropTimer k) (hok : (w.env b op).panicked = none) :
    t ∈ (w.env b op).timers ∨ ∃ rng nd' g fx, b.onTimer ⟨t.node, w.now, rng⟩ t.id nd w.shared = .ok (nd', g, fx) ∧
      (w.env b op).nodes t.node = some nd' := by
  rcases env_callback b hok with hquiet | ⟨i, x, rng, left, nd₀, nd', fx, harises, hcb⟩
  · rcases hquiet.kept t ht with hmem | hcr | hno | ⟨k, hk⟩
    · exact .inl hmem
    · exact absurd (hup.symm.trans hcr) (by simp)
    · exact absurd (hnd.symm.trans hno) (by simp)
    · exact absurd hk (hop k)
  · rcases harises.left.2 t ht with hleft | ⟨rfl, rfl, -⟩
    · left
      rw [hcb.timers]
      exact List.mem_append_left _ hleft
    · obtain rfl := Option.some.inj (hnd.symm.trans hcb.node)
      exact .inr ⟨rng, nd', _, fx, hcb.outcome, by rw [hcb.nodes, Function.update_self]⟩

/-- only a restart brings a node back -/
theorem env_up (b : Behaviour N G M R) {w : World N G M} {op : EnvOp R} {i : NodeId} {nd : N} (hnd : w.nodes i = some nd)
    (hok : (w.env b op).panicked = none) (h : (w.env b op).crashed i = false) :
    w.crashed i = false ∨ ∃ rng, op = .restart i rng := by
  rcases env_callback b hok with hquiet | ⟨j, x, rng, left, nd₀, nd', fx, harises, hcb⟩
  · rcases hquiet.crashed i h with hup | hno
    · exact .inl hup
    · exact absurd (hnd.symm.trans hno) (by simp)
  · by_cases hij : i = j
    · subst hij
      cases harises with
      | message hk hup => exact .inl hup
      | timer hk hup hdue => exact .inl hup
      | restart => exact .inr ⟨rng, rfl⟩
    · rw [hcb.crashed, Function.update_of_ne hij] at h
      exact .inl h

/-! ## What is armed -/

theorem mem_timersOf {i : NodeId} {now : ℕ} {fx : List (Effect M)} {t : PendingTimer} :
    t ∈ timersOf i now fx ↔ ∃ d id, .timer d id ∈ fx ∧ t = ⟨i, id, now + max d 1⟩ := by
  constructor
  · intro ht
    obtain ⟨f, hf, heq⟩ := List.mem_filterMap.1 ht
    cases f with
    | send dst payload => exact absurd heq (by simp)
    | timer d id => exact ⟨d, id, hf, (Option.some.inj heq).symm⟩
  · rintro ⟨d, id, hmem, rfl⟩
    exact List.mem_filterMap.2 ⟨_, hmem, rfl⟩

theorem timersOf_append (i : NodeId) (now : ℕ) (fx more : List (Effect M)) :
    timersOf i now (fx ++ more) = timersOf i now fx ++ timersOf i now more := List.filterMap_append

theorem timersOf_unarmed {i : NodeId} {now : ℕ} {fx : List (Effect M)} {id : TimerId} (h : ∀ d, .timer d id ∉ fx) :
    ((timersOf i now fx).filter fun t => decide (t.id = id)) = [] := by
  refine List.filter_eq_nil_iff.2 fun t ht => ?_
  obtain ⟨d, id', hmem, rfl⟩ := mem_timersOf.1 ht
  simp only [decide_eq_true_eq]
  rintro rfl
  exact h d hmem

/-! ## What stays pending -/

section Pending

variable {b : Behaviour N G M R} {w w' : World N G M} {op : EnvOp R} {i j : NodeId} {x : Stimulus M} {rng : R}
  {left : List PendingTimer} {nd nd' : N} {fx : List (Effect M)} {id : TimerId}

/-- what a callback arms is pending after it -/
theorem Callback.armed (h : Callback b w i x rng left nd nd' fx w') : ∀ d id, .timer d id ∈ fx → Pends w'.timers i id := by
  intro d id hmem
  refine ⟨⟨i, id, w.now + max d 1⟩, ?_, rfl, rfl⟩
  rw [h.timers]
  exact List.mem_append_right _ (List.mem_filterMap.2 ⟨_, hmem, rfl⟩)

/-- what was pending at a callback still is, unless it is the timer that fired -/
theorem Callback.kept (h : Callback b w i x rng left nd nd' fx w') (ha : Arises w op i x rng left)
    (hp : Pends w.timers j id) (hne : j = i → x ≠ .timer id) : Pends w'.timers j id := by
  obtain ⟨t, ht, hnode, hid⟩ := hp
  rcases ha.left.2 t ht with hleft | ⟨hi, hx, -⟩
  · exact ⟨t, by rw [h.timers]; exact List.mem_append_left _ hleft, hnode, hid⟩
  · exact absurd (by rw [hx, hid]) (hne (hnode.symm.trans hi))

/-- what was pending at a node that is up stays pending in a quiet step that drops no timer -/
theorem Quiet.pends (h : Quiet w op w') (hdrop : ∀ k, op ≠ .dropTimer k) (hup : w.crashed i = false)
    (hnd : w.nodes i = some nd) (hp : Pends w.timers i id) : Pends w'.timers i id := by
  obtain ⟨t, ht, rfl, hid⟩ := hp
  rcases h.kept t ht with hmem | hcr | hno | ⟨k, hk⟩
  · exact ⟨t, hmem, rfl, hid⟩
  · exact absurd (hup.symm.trans hcr) (by simp)
  · exact absurd (hnd.symm.trans hno) (by simp)
  · exact absurd hk (hdrop k)

end Pending

end World

end Queso
