/-
Every run of the kernel is a run of the asynchronous world.

`Matches k w`: the nodes, what they share, the clock and the crashed nodes are the same, the pending timers are the same,
and every message that is in flight in the kernel is in flight in the world. A message that the kernel drops stays in
flight in the world for ever. The world's clock does not saturate, so a timer past the end of the kernel's clock is later
there; as long as the clock has not reached its end, no such timer has fired.

`dispatch_refines` and `restart_refines` are the steps. So what is proved of all runs of a world holds of a kernel's.
-/
import Mathlib.Data.Multiset.AddSub
import Queso.Sim.Accounting
import Queso.Sim.World

namespace Queso.Sim

open Agenda

variable {N G M R : Type}

/-- as a message of the world -/
def Envelope.erase (e : Envelope M) : Queso.Envelope M := ⟨e.info.src, e.info.dst, e.payload⟩

/-- the timer that an event of the agenda fires -/
def pendingOf (e : ScheduledEvent) : Option PendingTimer :=
  match e.kind with
  | .timer node timerId => some ⟨node, timerId, e.time⟩
  | _ => none

/-- the timer, no later than the end of the clock -/
def capped (t : PendingTimer) : PendingTimer := { t with fireAt := min t.fireAt MAX }

namespace Kernel

def flying (k : Kernel N G M) : Multiset (Queso.Envelope M) := ↑(k.inFlight.entries.map fun e => e.2.erase)

def pending (k : Kernel N G M) : Multiset PendingTimer := ↑(k.queue.filterMap pendingOf)

end Kernel

/-- the world is where the kernel is -/
structure Matches (k : Kernel N G M) (w : World N G M) : Prop where
  nodes : w.nodes = k.nodes
  shared : w.shared = k.shared
  crashed : ∀ i, w.crashed i = k.faults.isCrashed i
  now : w.now = k.now
  net : k.flying ≤ ↑w.net
  timers : k.pending = ↑(w.timers.map capped)
  panicked : w.panicked.map Halt.panic = k.halted

variable {k k' : Kernel N G M} {w : World N G M}

/-! ## Taking one out -/

theorem exists_of_cons_eq {α β : Type} {f : α → β} {b : β} {s : Multiset β} {l : List α} (h : b ::ₘ s = ↑(l.map f)) :
    ∃ j a, l[j]? = some a ∧ f a = b ∧ s = ↑((l.eraseIdx j).map f) := by
  have hmem : b ∈ l.map f := by
    rw [← Multiset.mem_coe, ← h]
    exact Multiset.mem_cons_self b s
  obtain ⟨a, ha, rfl⟩ := List.mem_map.1 hmem
  obtain ⟨j, hj, rfl⟩ := List.mem_iff_getElem.1 ha
  refine ⟨j, l[j], List.getElem?_eq_getElem hj, rfl, ?_⟩
  have hperm : (l.map f : Multiset β) = f l[j] ::ₘ ↑((l.eraseIdx j).map f) :=
    Multiset.coe_eq_coe.2 ((List.getElem_cons_eraseIdx_perm hj).symm.map f)
  rw [hperm] at h
  exact (Multiset.cons_inj_right _).1 h

theorem exists_of_cons_le {α : Type} {a : α} {s : Multiset α} {l : List α} (h : a ::ₘ s ≤ ↑l) :
    ∃ j, l[j]? = some a ∧ s ≤ ↑(l.eraseIdx j) := by
  have hmem : a ∈ l := Multiset.mem_coe.1 (Multiset.mem_of_le h (Multiset.mem_cons_self a s))
  obtain ⟨j, hj, rfl⟩ := List.mem_iff_getElem.1 hmem
  refine ⟨j, List.getElem?_eq_getElem hj, ?_⟩
  have hperm : (l : Multiset α) = l[j] ::ₘ ↑(l.eraseIdx j) :=
    Multiset.coe_eq_coe.2 (List.getElem_cons_eraseIdx_perm hj).symm
  rw [hperm] at h
  exact (Multiset.cons_le_cons_iff _).1 h

theorem flying_of_lookup {id : MessageId} {envelope : Envelope M} (h : k.inFlight.lookup id = some envelope) :
    k.flying = envelope.erase ::ₘ Kernel.flying { k with inFlight := k.inFlight.erase id } := by
  have hmem : id ∈ k.inFlight.entries.keys := AList.lookup_isSome.1 (by rw [h]; rfl)
  obtain ⟨b, l₁, l₂, -, hsplit, herase⟩ := List.exists_of_kerase hmem
  have hb : b = envelope := by
    have hin : (⟨id, b⟩ : Sigma fun _ : MessageId => Envelope M) ∈ k.inFlight.entries := by
      rw [hsplit]
      simp
    have hlook : k.inFlight.lookup id = some b := AList.mem_lookup_iff.2 hin
    rw [h] at hlook
    exact (Option.some.inj hlook).symm
  have herase' : (k.inFlight.erase id).entries = l₁ ++ l₂ := herase
  unfold Kernel.flying
  dsimp only
  rw [hsplit, herase', hb, Multiset.cons_coe, Multiset.coe_eq_coe, List.map_append, List.map_append, List.map_cons]
  exact List.perm_middle

theorem flying_insert {id : MessageId} (hnew : id ∉ k.inFlight) (envelope : Envelope M) :
    Kernel.flying { k with inFlight := k.inFlight.insert id envelope } = envelope.erase ::ₘ k.flying := by
  unfold Kernel.flying
  dsimp only
  rw [AList.entries_insert_of_notMem hnew]
  rfl

theorem pending_of_cons {e : ScheduledEvent} {queue : List ScheduledEvent} (hq : k.queue = e :: queue) :
    k.pending = ↑(pendingOf e).toList + ↑(queue.filterMap pendingOf) := by
  unfold Kernel.pending
  rw [hq, List.filterMap_cons]
  cases pendingOf e <;> rfl

/-! ## Carrying out effects -/

/-- what a callback's effects do to the kernel -/
structure Emits (i : NodeId) (k k' : Kernel N G M) (fx : List (Effect M)) : Prop where
  nodes : k'.nodes = k.nodes
  shared : k'.shared = k.shared
  faults : k'.faults = k.faults
  now : k'.now = k.now
  halted : k'.halted = k.halted
  flying : k'.flying ≤ k.flying + ↑(sendsOf i fx)
  pending : k'.pending = k.pending + ↑((timersOf i k.now fx).map capped)

theorem pending_schedule (time seq : ℕ) (kind : EventKind) (l : List ScheduledEvent) :
    ((schedule ⟨time, seq, kind⟩ l).filterMap pendingOf : Multiset PendingTimer) =
      ↑(l.filterMap pendingOf) + ↑(pendingOf ⟨time, seq, kind⟩).toList := by
  have hperm := (schedule_perm ⟨time, seq, kind⟩ l).filterMap pendingOf
  rw [Multiset.coe_eq_coe.2 hperm, List.filterMap_cons]
  cases pendingOf ⟨time, seq, kind⟩ with
  | none => simp
  | some t => simp [add_comm]

theorem scheduleTimer_emits (i : NodeId) (k : Kernel N G M) (after : ℕ) (id : TimerId) :
    Emits i k (k.scheduleTimer i after id) [.timer after id] where
  nodes := rfl
  shared := rfl
  faults := rfl
  now := rfl
  halted := rfl
  flying := by simp [Kernel.scheduleTimer, Kernel.push, Kernel.flying, sendsOf]
  pending := pending_schedule _ _ _ _

theorem send_emits (hn : Harness N G M R) (hs : Sound k) (i dst : NodeId) (payload : M) :
    Emits i k (k.send hn i dst payload) [.send dst payload] := by
  have hdrop : ∀ size reason, Emits i k
      ((k.sending i dst size).record fun time seq => .drop time seq k.nextMessageId i dst reason)
      [.send dst payload] := fun size reason =>
    { nodes := rfl
      shared := rfl
      faults := rfl
      now := rfl
      halted := rfl
      flying := Multiset.le_add_right _ _
      pending := (add_zero _).symm }
  unfold Kernel.send
  dsimp only
  split_ifs
  · exact hdrop _ _
  · exact hdrop _ _
  · split
    · refine
        { nodes := rfl
          shared := rfl
          faults := rfl
          now := rfl
          halted := rfl
          flying := ?_
          pending := ?_ }
      · -- the id is new to the network
        have hnew : k.nextMessageId ∉ k.inFlight := by
          have hfresh := congrArg Tally.inFlight (hs.accounted k.nextMessageId).fresh.2
          exact AList.lookup_eq_none.1 (Option.isSome_eq_false_iff.1 hfresh |> Option.isNone_iff_eq_none.1)
        exact (flying_insert hnew _).le.trans (by rw [← Multiset.singleton_add, add_comm]; exact le_rfl)
      · exact (pending_schedule _ _ _ _).trans rfl
    · exact hdrop _ _

/-- what several effects do, one after another -/
theorem Emits.cons {i : NodeId} {k₁ : Kernel N G M} {f : Effect M} {fx : List (Effect M)} (h : Emits i k k₁ [f])
    (h' : Emits i k₁ k' fx) : Emits i k k' (f :: fx) where
  nodes := h'.nodes.trans h.nodes
  shared := h'.shared.trans h.shared
  faults := h'.faults.trans h.faults
  now := h'.now.trans h.now
  halted := h'.halted.trans h.halted
  flying := by
    have hsplit : sendsOf i (f :: fx) = sendsOf i [f] ++ sendsOf i fx := by
      unfold sendsOf
      rw [← List.filterMap_append]
      rfl
    rw [hsplit, ← Multiset.coe_add, ← add_assoc]
    exact h'.flying.trans (add_le_add_left h.flying _)
  pending := by
    have hsplit : timersOf i k.now (f :: fx) = timersOf i k.now [f] ++ timersOf i k.now fx := by
      unfold timersOf
      rw [← List.filterMap_append]
      rfl
    rw [h'.pending, h.pending, h.now, hsplit, List.map_append, ← Multiset.coe_add, add_assoc]

theorem effects_emit (hn : Harness N G M R) (i : NodeId) (fx : List (Effect M)) (hs : Sound k) :
    Emits i k (fx.foldl (Kernel.effect hn i) k) fx := by
  induction fx generalizing k with
  | nil => exact ⟨rfl, rfl, rfl, rfl, rfl, by simp [sendsOf], by simp [timersOf]⟩
  | cons f fx ih =>
    have hone : Emits i k (k.effect hn i f) [f] := by
      cases f with
      | send dst payload => exact send_emits hn hs i dst payload
      | timer after id => exact scheduleTimer_emits i k after id
    exact hone.cons (ih (effect_sound hs hn i f))

/-- a timer that the driver injects -/
theorem Matches.scheduleTimer (h : Matches k w) (i : NodeId) (after : ℕ) (id : TimerId) :
    Matches (k.scheduleTimer i after id) (w.injectTimer i after id) where
  nodes := h.nodes
  shared := h.shared
  crashed := h.crashed
  now := h.now
  net := h.net
  timers := by
    show _ = Multiset.ofList ((w.timers ++ [(⟨i, id, w.now + max after 1⟩ : PendingTimer)]).map capped)
    rw [(scheduleTimer_emits i k after id).pending, List.map_append, ← Multiset.coe_add, ← h.timers, h.now]
    rfl
  panicked := h.panicked

/-- **A callback** is taken over by the world as by the kernel. -/
theorem Matches.perform (h : Matches k w) (hs : Sound k) (hn : Harness N G M R) (i : NodeId) (o : Outcome N G M) :
    Matches (k.perform hn i o) (w.perform i o) := by
  cases o with
  | error e => exact ⟨h.nodes, h.shared, h.crashed, h.now, h.net, h.timers, rfl⟩
  | ok r =>
    obtain ⟨nd, g, fx⟩ := r
    have hs' : Sound { k with nodes := Function.update k.nodes i (some nd), shared := g } :=
      hs.frame (Function.update k.nodes i (some nd)) g k.leader k.halted
    have hfx := effects_emit hn i fx hs'
    exact
      { nodes := by rw [Kernel.perform, hfx.nodes, ← h.nodes]; rfl
        shared := by rw [Kernel.perform, hfx.shared]; rfl
        crashed := fun j => by rw [Kernel.perform, hfx.faults]; exact h.crashed j
        now := by rw [Kernel.perform, hfx.now]; exact h.now
        net := by
          show Kernel.flying (fx.foldl _ _) ≤ Multiset.ofList (w.net ++ sendsOf i fx)
          rw [← Multiset.coe_add]
          exact hfx.flying.trans (add_le_add_left h.net _)
        timers := by
          show Kernel.pending (fx.foldl _ _) = ↑((w.timers ++ timersOf i w.now fx).map capped)
          rw [hfx.pending, List.map_append, ← Multiset.coe_add, ← h.timers, h.now]
          rfl
        panicked := by rw [Kernel.perform, hfx.halted]; exact h.panicked }

/-! ## The event loop -/

/-- the environment neither loses nor copies -/
def Genuine : EnvOp R → Prop
  | .tick _ => True
  | .deliver _ _ => True
  | .fire _ _ => True
  | .crash _ => True
  | .restart _ _ => True
  | .drop _ => False
  | .dup _ => False
  | .dropTimer _ => False
  | .dupTimer _ => False

/-- `w'` is reached from `w` by genuine steps -/
def Reaches (b : Behaviour N G M R) (w w' : World N G M) : Prop :=
  ∃ ops : List (EnvOp R), (∀ op ∈ ops, Genuine op) ∧ Runs.run (World.env b) w ops = w'

theorem Reaches.refl (b : Behaviour N G M R) (w : World N G M) : Reaches b w w := ⟨[], by simp, rfl⟩

theorem Reaches.step {b : Behaviour N G M R} {w w' : World N G M} (h : Reaches b w w') (op : EnvOp R)
    (hop : Genuine op) : Reaches b w (w'.env b op) := by
  obtain ⟨ops, hops, rfl⟩ := h
  refine ⟨ops ++ [op], fun x hx => ?_, Runs.run_snoc _ _ _ _⟩
  rcases List.mem_append.1 hx with hx | hx
  · exact hops x hx
  · rw [List.mem_singleton.1 hx]
    exact hop

theorem Reaches.trans {b : Behaviour N G M R} {w w' w'' : World N G M} (h : Reaches b w w') (h' : Reaches b w' w'') :
    Reaches b w w'' := by
  obtain ⟨ops, hops, rfl⟩ := h
  obtain ⟨ops', hops', rfl⟩ := h'
  refine ⟨ops ++ ops', fun x hx => ?_, Runs.run_append _ _ _ _⟩
  rcases List.mem_append.1 hx with hx | hx
  · exact hops x hx
  · exact hops' x hx

theorem Matches.running (h : Matches k w) (hok : k.halted = none) : w.panicked = none := by
  have hp := h.panicked
  rw [hok] at hp
  exact Option.map_eq_none_iff.1 hp

/-- the world `w` at the time of the next event, in the kernel's terms -/
def waited (k : Kernel N G M) (w : World N G M) (time : ℕ) : World N G M where
  nodes := k.nodes
  shared := k.shared
  crashed := w.crashed
  net := w.net
  timers := w.timers
  now := time
  trace := w.trace
  panicked := none

/-- time passes until the next event -/
theorem Matches.wait (h : Matches k w) (b : Behaviour N G M R) (hok : k.halted = none) {time : ℕ} (htime : k.now ≤ time) :
    Reaches b w (waited k w time) := by
  have hstep : w.env b (.tick (time - k.now)) = waited k w time := by
    unfold World.env waited
    rw [if_neg (by simp [h.running hok])]
    have hnow : w.now + (time - k.now) = time := by rw [h.now]; omega
    rw [← h.nodes, ← h.shared, ← h.running hok]
    dsimp only
    rw [hnow]
  rw [← hstep]
  exact (Reaches.refl b w).step _ trivial

/-- **A timer's turn** -/
theorem timer_refines (h : Matches k w) (hs : Sound k) (hn : Harness N G M R) (hok : k.halted = none)
    {e : ScheduledEvent} {queue : List ScheduledEvent} (hq : k.queue = e :: queue) {node : NodeId} {timerId : TimerId}
    (hkind : e.kind = .timer node timerId) (hlt : e.time < MAX) :
    ∃ w', Reaches hn.behaviour w w' ∧
      Matches (Kernel.dispatchTimer hn node timerId e.seq
        { k with now := e.time, queue := queue, dispatched := k.dispatched ++ [e] }) w' := by
  have hreach := h.wait hn.behaviour hok (hs.agenda.due e (by rw [hq]; exact List.mem_cons_self))
  -- the world holds the same timer
  have hpend : (⟨node, timerId, e.time⟩ : PendingTimer) ::ₘ ↑(queue.filterMap pendingOf) = ↑(w.timers.map capped) := by
    rw [← h.timers, pending_of_cons hq, pendingOf, hkind]
    rfl
  obtain ⟨j, t, hj, hcap, hrest⟩ := exists_of_cons_eq hpend
  have ht : t.node = node ∧ t.id = timerId ∧ t.fireAt = e.time := by
    obtain ⟨tn, ti, tf⟩ := t
    simp only [capped, PendingTimer.mk.injEq] at hcap
    exact ⟨hcap.1, hcap.2.1, by show tf = e.time; omega⟩
  obtain ⟨rfl, rfl, hfire⟩ := ht
  have hstep : (waited k w e.time).env hn.behaviour (.fire j (hn.rng e.seq)) =
      World.dispatchTimer hn.behaviour { waited k w e.time with timers := w.timers.eraseIdx j } t (hn.rng e.seq) := by
    have hjw : (waited k w e.time).timers[j]? = some t := hj
    unfold World.env
    rw [if_neg (by simp [waited])]
    dsimp only
    rw [hjw]
    exact if_pos hfire.le
  refine ⟨_, hreach.step (.fire j (hn.rng e.seq)) trivial, ?_⟩
  rw [hstep]
  have hm : Matches { k with now := e.time, queue := queue, dispatched := k.dispatched ++ [e] }
      { waited k w e.time with timers := w.timers.eraseIdx j } :=
    ⟨rfl, rfl, h.crashed, rfl, h.net, hrest, hok.symm⟩
  have hsound : Sound { k with now := e.time, queue := queue, dispatched := k.dispatched ++ [e] } :=
    hs.taken hq fun id => by rw [hkind]; rfl
  unfold World.dispatchTimer Kernel.dispatchTimer
  by_cases hdown : k.faults.isCrashed t.node = true
  · rw [if_pos hdown, if_pos ((hm.crashed t.node).trans hdown)]
    exact ⟨rfl, rfl, hm.crashed, rfl, hm.net, hm.timers, hm.panicked⟩
  rw [if_neg hdown, if_neg fun hc => hdown ((hm.crashed t.node).symm.trans hc)]
  dsimp only [waited]
  cases hnd : k.nodes t.node with
  | none => exact hm
  | some nd =>
    have hrec : Sound (Kernel.recordAs { k with now := e.time, queue := queue, dispatched := k.dispatched ++ [e] } e.seq
        fun time seq => .timerFired time seq t.node t.id) :=
      hsound.recordAs (fun _ => ⟨rfl, rfl, rfl⟩) rfl (Bool.eq_false_iff.2 hdown)
    have hm' : Matches (Kernel.recordAs { k with now := e.time, queue := queue, dispatched := k.dispatched ++ [e] } e.seq
        fun time seq => .timerFired time seq t.node t.id)
        { waited k w e.time with timers := w.timers.eraseIdx j } :=
      ⟨rfl, rfl, hm.crashed, rfl, hm.net, hm.timers, hm.panicked⟩
    exact hm'.perform hrec hn t.node _

/-- **A message's turn**: one that the faults stop, or that nobody is there to take, stays in flight in the world. -/
theorem arrival_refines (h : Matches k w) (hs : Sound k) (hn : Harness N G M R) (hok : k.halted = none)
    {e : ScheduledEvent} {queue : List ScheduledEvent} (hq : k.queue = e :: queue) {id : MessageId}
    (hkind : e.kind = .messageArrival id) :
    ∃ w', Reaches hn.behaviour w w' ∧
      Matches (Kernel.dispatchMessageArrival hn id e.seq
        { k with now := e.time, queue := queue, dispatched := k.dispatched ++ [e] }) w' := by
  have hreach := h.wait hn.behaviour hok (hs.agenda.due e (by rw [hq]; exact List.mem_cons_self))
  obtain ⟨⟨envelope, henv⟩, harrived⟩ := hs.arrives hq hkind
  have hpend : (↑(queue.filterMap pendingOf) : Multiset PendingTimer) = ↑(w.timers.map capped) := by
    rw [← h.timers, pending_of_cons hq, pendingOf, hkind]
    exact (zero_add _).symm
  have hfly := h.net
  rw [flying_of_lookup henv] at hfly
  obtain ⟨j, hj, hrest⟩ := exists_of_cons_le hfly
  have hless : Kernel.flying { k with inFlight := k.inFlight.erase id } ≤ ↑w.net :=
    (Multiset.le_cons_self _ _).trans hfly
  unfold Kernel.dispatchMessageArrival
  dsimp only
  rw [henv]
  dsimp only
  have hstay : ∀ {k' : Kernel N G M}, k'.nodes = k.nodes → k'.shared = k.shared → k'.faults = k.faults →
      k'.now = e.time → k'.inFlight = k.inFlight.erase id → k'.queue = queue → k'.halted = k.halted →
      ∃ w', Reaches hn.behaviour w w' ∧ Matches k' w' := by
    intro k' hnodes hshared hfaults hnow hin hqueue hhalt
    refine ⟨_, hreach, ⟨hnodes.symm, hshared.symm, fun i => by rw [hfaults]; exact h.crashed i, hnow.symm, ?_, ?_, ?_⟩⟩
    · unfold Kernel.flying
      rw [hin]
      exact hless
    · unfold Kernel.pending
      rw [hqueue]
      exact hpend
    · rw [hhalt, hok]
      rfl
  by_cases hdown : k.faults.isCrashed envelope.info.dst = true
  · rw [if_pos hdown]
    exact hstay rfl rfl rfl rfl rfl rfl rfl
  rw [if_neg hdown]
  by_cases hcut : k.faults.isPartitioned envelope.info.src envelope.info.dst = true
  · rw [if_pos hcut]
    exact hstay rfl rfl rfl rfl rfl rfl rfl
  rw [if_neg hcut]
  cases hnd : k.nodes envelope.info.dst with
  | none => exact hstay rfl rfl rfl rfl rfl rfl rfl
  | some nd =>
    have hstep : (waited k w e.time).env hn.behaviour (.deliver j (hn.rng e.seq)) =
        World.perform
          { waited k w e.time with
            net := w.net.eraseIdx j
            trace := w.trace ++ [Queso.TraceEvent.deliver envelope.erase] } envelope.info.dst
          (hn.behaviour.onMessage ⟨envelope.info.dst, e.time, hn.rng e.seq⟩ envelope.info.src envelope.payload nd
            k.shared) := by
      have hjw : (waited k w e.time).net[j]? = some envelope.erase := hj
      have hup : ¬ w.crashed envelope.info.dst = true := fun hc => hdown ((h.crashed _).symm.trans hc)
      unfold World.env
      rw [if_neg (by simp [waited])]
      dsimp only
      rw [hjw]
      dsimp only [World.dispatchMessage]
      refine (if_neg hup).trans ?_
      have hndw : (waited k w e.time).nodes envelope.erase.dst = some nd := hnd
      rw [hndw]
      rfl
    refine ⟨_, hreach.step (.deliver j (hn.rng e.seq)) trivial, ?_⟩
    rw [hstep]
    have hsound : Sound (Kernel.recordAs
        { k with
          now := e.time
          queue := queue
          dispatched := k.dispatched ++ [e]
          inFlight := k.inFlight.erase id } e.seq
        fun time seq => .deliver time seq id envelope.info.src envelope.info.dst) :=
      harrived.delivered ⟨Bool.eq_false_iff.2 hdown, Bool.eq_false_iff.2 hcut⟩
    refine Matches.perform ?_ hsound hn envelope.info.dst _
    exact ⟨rfl, rfl, h.crashed, rfl, hrest, hpend, hok.symm⟩

/-- **A fault** is in force in the world as in the kernel; partitions and slow nodes are none of the world's business. -/
theorem applyFaultCommand_refines (h : Matches k w) (hs : Sound k) (hn : Harness N G M R) (hok : k.halted = none)
    (cmd : FaultCommand) : ∃ w', Reaches hn.behaviour w w' ∧ Matches (k.applyFaultCommand hn cmd) w' := by
  have hp := h.running hok
  have hsame : ∀ {k' : Kernel N G M}, k'.nodes = k.nodes → k'.shared = k.shared →
      (∀ i, k'.faults.isCrashed i = k.faults.isCrashed i) → k'.now = k.now → k'.inFlight = k.inFlight →
      k'.queue = k.queue → k'.halted = k.halted → ∃ w', Reaches hn.behaviour w w' ∧ Matches k' w' := by
    intro k' hnodes hshared hfaults hnow hin hqueue hhalt
    refine ⟨w, .refl _ w, ⟨by rw [hnodes, h.nodes], by rw [hshared, h.shared], fun i => by rw [hfaults]; exact h.crashed i,
      by rw [hnow, h.now], ?_, ?_, by rw [hhalt, h.panicked]⟩⟩
    · unfold Kernel.flying
      rw [hin]
      exact h.net
    · unfold Kernel.pending
      rw [hqueue]
      exact h.timers
  unfold Kernel.applyFaultCommand
  cases cmd with
  | partition a b => exact hsame rfl rfl (fun _ => rfl) rfl rfl rfl rfl
  | heal => exact hsame rfl rfl (fun _ => rfl) rfl rfl rfl rfl
  | clearSlow node => exact hsame rfl rfl (fun _ => rfl) rfl rfl rfl rfl
  | slowNode node multiplier =>
    refine hsame rfl rfl (fun i => ?_) rfl rfl rfl rfl
    show (k.faults.setSlow node multiplier).isCrashed i = k.faults.isCrashed i
    unfold FaultState.setSlow
    split_ifs <;> rfl
  | crash node =>
    have hstep : w.env hn.behaviour (.crash node) = { w with crashed := Function.update w.crashed node true } := by
      unfold World.env
      rw [if_neg (by simp [hp])]
    refine ⟨_, (Reaches.refl _ w).step (.crash node) trivial, ?_⟩
    rw [hstep]
    refine ⟨h.nodes, h.shared, fun i => ?_, h.now, h.net, h.timers, h.panicked⟩
    show Function.update w.crashed node true i = decide (i ∈ insert node k.faults.crashed)
    have hi := h.crashed i
    unfold FaultState.isCrashed at hi
    by_cases hin : i = node
    · subst hin
      simp
    · rw [Function.update_of_ne hin, hi]
      simp [hin]
  | restart node =>
    dsimp only
    have hm : Matches ({ k with faults := k.faults.restart node }.record fun time seq => .restart time seq node)
        { w with crashed := Function.update w.crashed node false } := by
      refine ⟨h.nodes, h.shared, fun i => ?_, h.now, h.net, h.timers, h.panicked⟩
      show Function.update w.crashed node false i = decide (i ∈ k.faults.crashed.erase node)
      have hi := h.crashed i
      unfold FaultState.isCrashed at hi
      by_cases hin : i = node
      · subst hin
        simp
      · rw [Function.update_of_ne hin, hi]
        simp [hin]
    have hstep : w.env hn.behaviour (.restart node (hn.rng k.nextSeq)) =
        w.restartNode hn.behaviour node (hn.rng k.nextSeq) := by
      unfold World.env
      rw [if_neg (by simp [hp])]
    refine ⟨_, (Reaches.refl _ w).step (.restart node (hn.rng k.nextSeq)) trivial, ?_⟩
    rw [hstep]
    have hrec : Sound ({ k with faults := k.faults.restart node }.record fun time seq => .restart time seq node) :=
      hs.record (fun _ => ⟨rfl, rfl, rfl⟩) rfl trivial
    have hnd : w.nodes node = k.nodes node := by rw [h.nodes]
    unfold World.restartNode
    dsimp only
    cases hk : k.nodes node with
    | none =>
      rw [hk] at hnd
      rw [hnd]
      split
      · exact hm
      · next heq => exact absurd (heq.symm.trans hk) (by simp)
    | some nd =>
      rw [hk] at hnd
      rw [hnd]
      have hcall : hn.behaviour.onRestart ⟨node, w.now, hn.rng k.nextSeq⟩ nd w.shared =
          hn.behaviour.onRestart ⟨node, k.now, hn.rng k.nextSeq⟩ nd k.shared := by rw [h.now, h.shared]
      split
      · next heq => exact absurd (heq.symm.trans hk) (by simp)
      · next nd' heq =>
        obtain rfl := Option.some.inj (hk.symm.trans heq)
        simp only [hcall]
        exact hm.perform hrec hn node _

/-- **The kernel's turn** is a run of the world, as long as the clock does not reach its end. -/
theorem dispatch_refines (h : Matches k w) (hs : Sound k) (hn : Harness N G M R) (hok : k.halted = none)
    (hclock : (k.dispatch hn).now < MAX) : ∃ w', Reaches hn.behaviour w w' ∧ Matches (k.dispatch hn) w' := by
  unfold Kernel.dispatch at hclock ⊢
  cases hq : k.queue with
  | nil => exact ⟨w, .refl _ w, h⟩
  | cons e queue =>
    rw [hq] at hclock
    dsimp only at hclock ⊢
    rw [handle_now] at hclock
    unfold Kernel.handle
    cases hkind : e.kind with
    | timer node timerId => exact timer_refines h hs hn hok hq hkind hclock
    | messageArrival id => exact arrival_refines h hs hn hok hq hkind
    | fault cmd =>
      have hreach := h.wait hn.behaviour hok (hs.agenda.due e (by rw [hq]; exact List.mem_cons_self))
      have hm : Matches { k with now := e.time, queue := queue, dispatched := k.dispatched ++ [e] }
          (waited k w e.time) := by
        refine ⟨rfl, rfl, h.crashed, rfl, h.net, ?_, hok.symm⟩
        show (↑(queue.filterMap pendingOf) : Multiset PendingTimer) = ↑(w.timers.map capped)
        rw [← h.timers, pending_of_cons hq, pendingOf, hkind]
        exact (zero_add _).symm
      have hsound : Sound { k with now := e.time, queue := queue, dispatched := k.dispatched ++ [e] } :=
        hs.taken hq fun id => by rw [hkind]; rfl
      obtain ⟨w', hreach', hm'⟩ := applyFaultCommand_refines hm hsound hn hok cmd
      exact ⟨w', hreach.trans hreach', hm'⟩

/-- **A run of the kernel up to an instant** is a run of the world. -/
theorem runUntil_refines {limit fuel : ℕ} (h : Matches k w) (hs : Sound k) (hn : Harness N G M R)
    (hr : k.runUntil hn limit fuel = some k') (hclock : k'.now < MAX) :
    ∃ w', Reaches hn.behaviour w w' ∧ Matches k' w' := by
  let I : Kernel N G M → Prop := fun k => Sound k ∧ (k.now < MAX → ∃ w', Reaches hn.behaviour w w' ∧ Matches k w')
  have hI : ∀ k : Kernel N G M, I k → k.halted = none → k.due limit = true → I (k.dispatch hn) := by
    intro k ⟨hs, hm⟩ hok _
    refine ⟨dispatch_sound hs hn, fun hlt => ?_⟩
    obtain ⟨w', hreach, hm'⟩ := hm ((dispatch_now hs hn).trans_lt hlt)
    obtain ⟨w'', hreach', hm''⟩ := dispatch_refines hm' hs hn hok hlt
    exact ⟨w'', hreach.trans hreach', hm''⟩
  exact (runUntil_invariant (I := I) hn hI ⟨hs, fun _ => ⟨w, .refl _ w, h⟩⟩ hr).2 hclock

end Queso.Sim
