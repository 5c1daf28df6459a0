/-
What the kernel keeps account of, in every run: of messages, of faults and of time.

- A message that was sent is in flight with one arrival on the agenda, or was delivered once, or was dropped once, or
  arrived where no node was registered; and it is one of these only (`Tally`).
- The faults in force are what the trace says they are, so each delivery and each timer in the trace can be held against
  the faults recorded before it (`Lawful`).
- The agenda is run in order (`Agenda.Ordered`), and the clock never goes back.

`Sound` holds all three together. One lemma for each of the kernel's functions preserves it, and `sound_run` is the run
lemma. Nothing is assumed of the nodes, of the scheduler or of the driver.
-/
import Queso.Lib.Runs
import Queso.Sim.Kernel

namespace Queso.Sim

open Agenda

/-! ## Counting -/

namespace TraceEvent

def sends (id : MessageId) : TraceEvent → Bool
  | .send _ _ id' _ _ _ => id' == id
  | _ => false

def delivers (id : MessageId) : TraceEvent → Bool
  | .deliver _ _ id' _ _ => id' == id
  | _ => false

def drops (id : MessageId) : TraceEvent → Bool
  | .drop _ _ id' _ _ _ => id' == id
  | _ => false

/-- an event that is not about a message -/
def Quiet (ev : TraceEvent) : Prop := ∀ id, ev.sends id = false ∧ ev.delivers id = false ∧ ev.drops id = false

end TraceEvent

def EventKind.arrives (id : MessageId) : EventKind → Bool
  | .messageArrival id' => id' == id
  | _ => false

/-- how often a message is in flight, on the agenda, delivered, dropped and unclaimed -/
structure Tally where
  inFlight : Bool
  arrivals : ℕ
  delivered : ℕ
  dropped : ℕ
  unclaimed : ℕ
deriving DecidableEq

variable {N G M R : Type}

namespace Kernel

def sent (k : Kernel N G M) (id : MessageId) : ℕ := k.trace.countP (·.sends id)

def tally (k : Kernel N G M) (id : MessageId) : Tally where
  inFlight := (k.inFlight.lookup id).isSome
  arrivals := k.queue.countP (·.kind.arrives id)
  delivered := k.trace.countP (·.delivers id)
  dropped := k.trace.countP (·.drops id)
  unclaimed := k.unclaimed.count id

end Kernel

/-- where a message that was sent can be -/
inductive Fate : Tally → Prop where
  | inFlight : Fate ⟨true, 1, 0, 0, 0⟩
  | delivered : Fate ⟨false, 0, 1, 0, 0⟩
  | dropped : Fate ⟨false, 0, 0, 1, 0⟩
  | unclaimed : Fate ⟨false, 0, 0, 0, 1⟩

/-- the message was sent once and has one fate, or was never sent -/
def Accounted (k : Kernel N G M) (id : MessageId) : Prop :=
  if id < k.nextMessageId then k.sent id = 1 ∧ Fate (k.tally id) else k.sent id = 0 ∧ k.tally id = ⟨false, 0, 0, 0, 0⟩

/-! ## The faults that a trace records -/

namespace FaultState

/-- take in what an event of the trace says about faults -/
def note (f : FaultState) : TraceEvent → FaultState
  | .crash _ _ node => f.crash node
  | .restart _ _ node => f.restart node
  | .partition _ _ a b => f.setPartition a b
  | .heal _ _ => f.heal
  | .slowNode _ _ node multiplier => f.setSlow node multiplier
  | _ => f

/-- the faults in force after a trace -/
def replay (t : List TraceEvent) : FaultState := t.foldl note default

@[simp] theorem replay_snoc (t : List TraceEvent) (ev : TraceEvent) : replay (t ++ [ev]) = (replay t).note ev := by
  simp [replay, List.foldl_append]

end FaultState

/-- what the faults in force allow to happen -/
def TraceEvent.Allowed (f : FaultState) : TraceEvent → Prop
  | .deliver _ _ _ src dst => f.isCrashed dst = false ∧ f.isPartitioned src dst = false
  | .timerFired _ _ node _ => f.isCrashed node = false
  | _ => True

/-- every event of the trace was allowed by the faults recorded before it -/
def Lawful (t : List TraceEvent) : Prop :=
  ∀ pre ev post, t = pre ++ ev :: post → ev.Allowed (FaultState.replay pre)

theorem lawful_nil : Lawful [] := fun pre ev post h => absurd h (by simp)

theorem Lawful.snoc {t : List TraceEvent} (h : Lawful t) {ev : TraceEvent} (hev : ev.Allowed (FaultState.replay t)) :
    Lawful (t ++ [ev]) := by
  intro pre x post hsplit
  rcases List.eq_nil_or_concat post with rfl | ⟨post, y, rfl⟩
  · obtain ⟨rfl, heq⟩ := List.append_inj' hsplit rfl
    rw [← List.singleton_inj.1 heq]
    exact hev
  · have hsplit' : t ++ [ev] = (pre ++ x :: post) ++ [y] := by simpa using hsplit
    obtain ⟨rfl, -⟩ := List.append_inj' hsplit' rfl
    exact h pre x post rfl

/-! ## The account of a kernel -/

structure Sound (k : Kernel N G M) : Prop where
  agenda : Ordered k.now k.nextSeq k.queue k.dispatched
  clock : k.now ≤ MAX
  times : ∀ e ∈ k.queue, e.time ≤ MAX
  faults : k.faults = FaultState.replay k.trace
  lawful : Lawful k.trace
  accounted : ∀ id, Accounted k id

theorem sound_new (shared : G) : Sound (Kernel.new shared : Kernel N G M) where
  agenda := ordered_empty 0 0
  clock := Nat.zero_le _
  times := fun e he => absurd he (by simp [Kernel.new])
  faults := rfl
  lawful := lawful_nil
  accounted := fun id => by
    show if id < 0 then _ else _
    rw [if_neg (Nat.not_lt_zero id)]
    exact ⟨rfl, rfl⟩

variable {k k' : Kernel N G M} {id : MessageId}

theorem le_advance {t : ℕ} (ht : t ≤ MAX) (d : ℕ) : t ≤ advance t d := by unfold advance; omega

theorem lt_advance {t d : ℕ} (ht : t < MAX) (hd : 0 < d) : t < advance t d := by unfold advance; omega

theorem advance_le (t d : ℕ) : advance t d ≤ MAX := min_le_right _ _

/-- an account does not depend on the nodes, what they share, the leader and the ending -/
theorem Sound.frame (h : Sound k) (nodes : NodeId → Option N) (shared : G) (leader : Option NodeId)
    (halted : Option Halt) :
    Sound { k with nodes := nodes, shared := shared, leader := leader, halted := halted } :=
  ⟨h.agenda, h.clock, h.times, h.faults, h.lawful, h.accounted⟩

theorem Accounted.same (h : Accounted k id) (hnext : id < k'.nextMessageId ↔ id < k.nextMessageId)
    (hsent : k'.sent id = k.sent id) (htally : k'.tally id = k.tally id) : Accounted k' id := by
  unfold Accounted at h ⊢
  rw [hsent, htally]
  by_cases hlt : id < k.nextMessageId
  · rw [if_pos hlt] at h
    rw [if_pos (hnext.2 hlt)]
    exact h
  · rw [if_neg hlt] at h
    rw [if_neg fun hlt' => hlt (hnext.1 hlt')]
    exact h

/-- nothing is known of a message before it is sent -/
theorem Accounted.fresh (h : Accounted k k.nextMessageId) :
    k.sent k.nextMessageId = 0 ∧ k.tally k.nextMessageId = ⟨false, 0, 0, 0, 0⟩ := by
  unfold Accounted at h
  rwa [if_neg (lt_irrefl _)] at h

/-- a message in flight was sent, and has its arrival on the agenda and no other fate -/
theorem Accounted.flying (h : Accounted k id) (hfly : (k.inFlight.lookup id).isSome) :
    id < k.nextMessageId ∧ k.sent id = 1 ∧ k.tally id = ⟨true, 1, 0, 0, 0⟩ := by
  have hin : (k.tally id).inFlight = true := hfly
  unfold Accounted at h
  split_ifs at h with hlt
  · refine ⟨hlt, h.1, ?_⟩
    generalize k.tally id = tally at h hin
    cases h.2 with
    | inFlight => rfl
    | delivered => cases hin
    | dropped => cases hin
    | unclaimed => cases hin
  · rw [h.2] at hin
    cases hin

/-- an event joins the trace -/
theorem sent_snoc {ev : TraceEvent} (htrace : k'.trace = k.trace ++ [ev]) (id : MessageId) :
    k'.sent id = k.sent id + (ev.sends id).toNat := by
  unfold Kernel.sent
  rw [htrace, List.countP_append, List.countP_singleton]
  cases ev.sends id <;> rfl

theorem tally_snoc {ev : TraceEvent} (htrace : k'.trace = k.trace ++ [ev]) (hqueue : k'.queue = k.queue)
    (hfly : k'.inFlight = k.inFlight) (hun : k'.unclaimed = k.unclaimed) (id : MessageId) :
    k'.tally id =
      { k.tally id with
        delivered := (k.tally id).delivered + (ev.delivers id).toNat
        dropped := (k.tally id).dropped + (ev.drops id).toNat } := by
  unfold Kernel.tally
  rw [htrace, hqueue, hfly, hun, List.countP_append, List.countP_append, List.countP_singleton, List.countP_singleton]
  cases ev.delivers id <;> cases ev.drops id <;> rfl

/-- an event joins the trace that is not about the message -/
theorem Accounted.snoc (h : Accounted k id) {ev : TraceEvent} (htrace : k'.trace = k.trace ++ [ev])
    (hqueue : k'.queue = k.queue) (hfly : k'.inFlight = k.inFlight) (hun : k'.unclaimed = k.unclaimed)
    (hnext : id < k'.nextMessageId ↔ id < k.nextMessageId)
    (hq : ev.sends id = false ∧ ev.delivers id = false ∧ ev.drops id = false) : Accounted k' id := by
  obtain ⟨hs, hd, hdr⟩ := hq
  refine h.same hnext ?_ ?_
  · rw [sent_snoc htrace, hs]
    rfl
  · rw [tally_snoc htrace hqueue hfly hun, hd, hdr]
    rfl

/-! ## Recording and scheduling -/

/-- **A quiet event is recorded**, with what it says about faults. -/
theorem Sound.record (h : Sound k) {f : FaultState} {ev : ℕ → ℕ → TraceEvent} (hq : (ev k.now k.nextSeq).Quiet)
    (hf : f = k.faults.note (ev k.now k.nextSeq)) (hallow : (ev k.now k.nextSeq).Allowed k.faults) :
    Sound ({ k with faults := f }.record ev) where
  agenda := h.agenda.bump (Nat.le_succ _)
  clock := h.clock
  times := h.times
  faults := by
    show f = FaultState.replay (k.trace ++ [ev k.now k.nextSeq])
    rw [FaultState.replay_snoc, ← h.faults, hf]
  lawful := h.lawful.snoc (by rw [← h.faults]; exact hallow)
  accounted := fun id => (h.accounted id).snoc rfl rfl rfl rfl (by rfl) (hq id)

/-- a timer or a timer's loss is recorded under its own number -/
theorem Sound.recordAs (h : Sound k) {seq : ℕ} {ev : ℕ → ℕ → TraceEvent} (hq : (ev k.now seq).Quiet)
    (hf : k.faults.note (ev k.now seq) = k.faults) (hallow : (ev k.now seq).Allowed k.faults) :
    Sound (k.recordAs seq ev) where
  agenda := h.agenda
  clock := h.clock
  times := h.times
  faults := by
    show k.faults = FaultState.replay (k.trace ++ [ev k.now seq])
    rw [FaultState.replay_snoc, ← h.faults, hf]
  lawful := h.lawful.snoc (by rw [← h.faults]; exact hallow)
  accounted := fun id => (h.accounted id).snoc rfl rfl rfl rfl (by rfl) (hq id)

/-- a timer or a fault goes on the agenda -/
theorem Sound.push (h : Sound k) {time : ℕ} {kind : EventKind} (htime : k.now ≤ time) (hmax : time ≤ MAX)
    (hkind : ∀ id, kind.arrives id = false) : Sound (k.push time kind) where
  agenda := h.agenda.schedule htime rfl
  clock := h.clock
  times := fun e he => by
    rcases mem_schedule.1 he with rfl | he
    · exact hmax
    · exact h.times e he
  faults := h.faults
  lawful := h.lawful
  accounted := fun id => by
    refine (h.accounted id).same (by rfl) (by rfl) ?_
    unfold Kernel.tally Kernel.push
    dsimp only
    rw [(schedule_perm _ _).countP_eq, List.countP_cons, hkind id]
    rfl

theorem scheduleTimer_sound (h : Sound k) (node : NodeId) (after : ℕ) (timerId : TimerId) :
    Sound (k.scheduleTimer node after timerId) := by
  have hrec : Sound (k.recordAs k.nextSeq fun time seq =>
      .timerScheduled time seq node timerId (advance k.now (max after 1))) :=
    h.recordAs (fun _ => ⟨rfl, rfl, rfl⟩) rfl trivial
  exact hrec.push (le_advance h.clock _) (advance_le _ _) fun _ => rfl

/-! ## Sending -/

/-- a message that is recorded as sent -/
def Kernel.sending (k : Kernel N G M) (src dst : NodeId) (size : ℕ) : Kernel N G M :=
  { k with nextMessageId := k.nextMessageId + 1 }.record fun time seq => .send time seq k.nextMessageId src dst size

theorem accounted_sending (h : Sound k) (src dst : NodeId) (size : ℕ) :
    (k.sending src dst size).sent k.nextMessageId = 1 ∧
      (k.sending src dst size).tally k.nextMessageId = ⟨false, 0, 0, 0, 0⟩ ∧
      ∀ id, id ≠ k.nextMessageId → Accounted (k.sending src dst size) id := by
  obtain ⟨hsent, htally⟩ := (h.accounted k.nextMessageId).fresh
  refine ⟨?_, ?_, fun id hid => ?_⟩
  · rw [sent_snoc (k := k) (by rfl), hsent]
    simp [TraceEvent.sends]
  · rw [tally_snoc (k := k) (by rfl) (by rfl) (by rfl) (by rfl), htally]
    rfl
  · refine (h.accounted id).snoc (by rfl) rfl rfl rfl ?_ ⟨?_, rfl, rfl⟩
    · show id < k.nextMessageId + 1 ↔ id < k.nextMessageId
      omega
    · simpa [TraceEvent.sends] using Ne.symm hid

theorem faults_sending (h : Sound k) (src dst : NodeId) (size : ℕ) :
    k.faults = FaultState.replay (k.sending src dst size).trace ∧ Lawful (k.sending src dst size).trace := by
  constructor
  · show k.faults = FaultState.replay (k.trace ++ [_])
    rw [FaultState.replay_snoc, ← h.faults]
    rfl
  · exact h.lawful.snoc trivial

theorem accounted_of_fate (hlt : id < k.nextMessageId) (hsent : k.sent id = 1) (hfate : Fate (k.tally id)) :
    Accounted k id := by
  unfold Accounted
  rw [if_pos hlt]
  exact ⟨hsent, hfate⟩

/-- a message that is dropped as it is sent -/
theorem Sound.dropped (h : Sound k) (src dst : NodeId) (size : ℕ) (reason : DropReason) :
    Sound ((k.sending src dst size).record fun time seq => .drop time seq k.nextMessageId src dst reason) := by
  obtain ⟨hsent, htally, hother⟩ := accounted_sending h src dst size
  obtain ⟨hfaults, hlawful⟩ := faults_sending h src dst size
  refine
    { agenda := h.agenda.bump (by show k.nextSeq ≤ k.nextSeq + 1 + 1; omega)
      clock := h.clock
      times := h.times
      faults := ?_
      lawful := hlawful.snoc trivial
      accounted := fun id => ?_ }
  · show k.faults = FaultState.replay ((k.sending src dst size).trace ++ [_])
    rw [FaultState.replay_snoc, ← hfaults]
    rfl
  · by_cases hid : id = k.nextMessageId
    · subst hid
      refine accounted_of_fate (Nat.lt_succ_self _) ?_ ?_
      · rw [sent_snoc (k := k.sending src dst size) (by rfl), hsent]
        rfl
      · rw [tally_snoc (k := k.sending src dst size) (by rfl) (by rfl) (by rfl) (by rfl), htally]
        simpa [TraceEvent.drops, TraceEvent.delivers] using Fate.dropped
    · exact (hother id hid).snoc rfl rfl rfl rfl (by rfl)
        ⟨rfl, rfl, by simpa [TraceEvent.drops] using Ne.symm hid⟩

/-- a message that sets out -/
theorem Sound.travels (h : Sound k) (src dst : NodeId) (size delay : ℕ) (envelope : Envelope M) :
    Sound
      { (k.sending src dst size).push (advance k.now delay) (.messageArrival k.nextMessageId) with
        inFlight := k.inFlight.insert k.nextMessageId envelope } := by
  obtain ⟨hsent, htally, hother⟩ := accounted_sending h src dst size
  obtain ⟨hfaults, hlawful⟩ := faults_sending h src dst size
  have hagenda : Ordered k.now (k.sending src dst size).nextSeq k.queue k.dispatched := h.agenda.bump (Nat.le_succ _)
  refine
    { agenda := hagenda.schedule (le_advance h.clock _) rfl
      clock := h.clock
      times := fun e he => ?_
      faults := hfaults
      lawful := hlawful
      accounted := fun id => ?_ }
  · rcases mem_schedule.1 he with rfl | he
    · exact advance_le _ _
    · exact h.times e he
  · by_cases hid : id = k.nextMessageId
    · subst hid
      refine accounted_of_fate (Nat.lt_succ_self _) hsent ?_
      -- its arrival is the one entry of the agenda that names it
      have harr : k.queue.countP (·.kind.arrives k.nextMessageId) = 0 := congrArg Tally.arrivals htally
      have hdel : (k.sending src dst size).trace.countP (·.delivers k.nextMessageId) = 0 :=
        congrArg Tally.delivered htally
      have hdrop : (k.sending src dst size).trace.countP (·.drops k.nextMessageId) = 0 := congrArg Tally.dropped htally
      have hun : k.unclaimed.count k.nextMessageId = 0 := congrArg Tally.unclaimed htally
      have hone : (schedule ⟨advance k.now delay, k.nextSeq + 1, .messageArrival k.nextMessageId⟩ k.queue).countP
          (·.kind.arrives k.nextMessageId) = 1 := by
        rw [(schedule_perm _ _).countP_eq, List.countP_cons, harr]
        simp [EventKind.arrives]
      have htally' : Kernel.tally
          { (k.sending src dst size).push (advance k.now delay) (.messageArrival k.nextMessageId) with
            inFlight := k.inFlight.insert k.nextMessageId envelope } k.nextMessageId = ⟨true, 1, 0, 0, 0⟩ := by
        show Tally.mk _ _ _ _ _ = _
        rw [Tally.mk.injEq]
        exact ⟨by simp, hone, hdel, hdrop, hun⟩
      rw [htally']
      exact .inFlight
    · refine (hother id hid).same (by rfl) (by rfl) ?_
      show Tally.mk _ _ _ _ _ = Tally.mk _ _ _ _ _
      rw [Tally.mk.injEq]
      refine ⟨?_, ?_, rfl, rfl, rfl⟩
      · show ((k.inFlight.insert k.nextMessageId envelope).lookup id).isSome = (k.inFlight.lookup id).isSome
        rw [AList.lookup_insert_ne hid]
      · show (schedule _ k.queue).countP _ = k.queue.countP _
        rw [(schedule_perm _ _).countP_eq, List.countP_cons]
        simp [EventKind.arrives, Ne.symm hid]

/-- **A message is sent**: it is dropped at once, or it sets out. -/
theorem send_sound (h : Sound k) (hn : Harness N G M R) (src dst : NodeId) (payload : M) :
    Sound (k.send hn src dst payload) := by
  unfold Kernel.send
  dsimp only
  split_ifs
  · exact h.dropped src dst (hn.size payload) .crashed
  · exact h.dropped src dst (hn.size payload) .partitioned
  · split
    · exact h.travels src dst (hn.size payload) _ _
    · exact h.dropped src dst (hn.size payload) .scheduler

/-! ## Callbacks -/

theorem effect_sound (h : Sound k) (hn : Harness N G M R) (i : NodeId) (fx : Effect M) : Sound (k.effect hn i fx) := by
  cases fx with
  | send dst payload => exact send_sound h hn i dst payload
  | timer after id => exact scheduleTimer_sound h i after id

/-- **A callback** is over when all its effects are carried out. -/
theorem perform_sound (h : Sound k) (hn : Harness N G M R) (i : NodeId) (o : Outcome N G M) :
    Sound (k.perform hn i o) := by
  cases o with
  | error e => exact h.frame k.nodes k.shared k.leader (some (.panic e))
  | ok r =>
    obtain ⟨nd, g, fx⟩ := r
    have hfold : ∀ (fx : List (Effect M)) (k : Kernel N G M), Sound k → Sound (fx.foldl (Kernel.effect hn i) k) := by
      intro fx
      induction fx with
      | nil => exact fun k h => h
      | cons f fx ih => exact fun k h => ih _ (effect_sound h hn i f)
    exact hfold fx _ (h.frame (Function.update k.nodes i (some nd)) g k.leader k.halted)

theorem applyFaultCommand_sound (h : Sound k) (hn : Harness N G M R) (cmd : FaultCommand) :
    Sound (k.applyFaultCommand hn cmd) := by
  unfold Kernel.applyFaultCommand
  cases cmd with
  | crash node => exact h.record (fun _ => ⟨rfl, rfl, rfl⟩) rfl trivial
  | restart node =>
    have hup : Sound ({ k with faults := k.faults.restart node }.record fun time seq => .restart time seq node) :=
      h.record (fun _ => ⟨rfl, rfl, rfl⟩) rfl trivial
    dsimp only
    split
    · exact hup
    · exact perform_sound hup hn node _
  | partition a b => exact h.record (fun _ => ⟨rfl, rfl, rfl⟩) rfl trivial
  | heal => exact h.record (fun _ => ⟨rfl, rfl, rfl⟩) rfl trivial
  | slowNode node multiplier => exact h.record (fun _ => ⟨rfl, rfl, rfl⟩) rfl trivial
  | clearSlow node => exact h.record (fun _ => ⟨rfl, rfl, rfl⟩) rfl trivial

/-! ## The event loop -/

theorem dispatchTimer_sound (h : Sound k) (hn : Harness N G M R) (node : NodeId) (timerId : TimerId) (seq : ℕ) :
    Sound (k.dispatchTimer hn node timerId seq) := by
  unfold Kernel.dispatchTimer
  by_cases hdown : k.faults.isCrashed node = true
  · rw [if_pos hdown]
    exact h.recordAs (fun _ => ⟨rfl, rfl, rfl⟩) rfl trivial
  · rw [if_neg hdown]
    split
    · exact h
    · apply perform_sound
      exact h.recordAs (fun _ => ⟨rfl, rfl, rfl⟩) rfl (Bool.eq_false_iff.2 hdown)

/-- the message `id` has left the agenda and the network, and what became of it is not yet on record -/
structure Arrived (k : Kernel N G M) (id : MessageId) : Prop where
  agenda : Ordered k.now k.nextSeq k.queue k.dispatched
  clock : k.now ≤ MAX
  times : ∀ e ∈ k.queue, e.time ≤ MAX
  faults : k.faults = FaultState.replay k.trace
  lawful : Lawful k.trace
  known : id < k.nextMessageId
  sent : k.sent id = 1
  tally : k.tally id = ⟨false, 0, 0, 0, 0⟩
  others : ∀ id', id' ≠ id → Accounted k id'

/-- an event says what became of the message -/
theorem Arrived.settle (h : Arrived k id) {seq : ℕ} {ev : ℕ → ℕ → TraceEvent}
    (hf : k.faults.note (ev k.now seq) = k.faults) (hallow : (ev k.now seq).Allowed k.faults)
    (hsends : (ev k.now seq).sends id = false)
    (hother : ∀ id', id' ≠ id → (ev k.now seq).sends id' = false ∧ (ev k.now seq).delivers id' = false ∧
      (ev k.now seq).drops id' = false)
    (hfate : Fate ⟨false, 0, ((ev k.now seq).delivers id).toNat, ((ev k.now seq).drops id).toNat, 0⟩) :
    Sound (k.recordAs seq ev) where
  agenda := h.agenda
  clock := h.clock
  times := h.times
  faults := by
    show k.faults = FaultState.replay (k.trace ++ [ev k.now seq])
    rw [FaultState.replay_snoc, ← h.faults, hf]
  lawful := h.lawful.snoc (by rw [← h.faults]; exact hallow)
  accounted := fun id' => by
    by_cases hid : id' = id
    · subst hid
      refine accounted_of_fate h.known ?_ ?_
      · rw [sent_snoc (k := k) (by rfl), h.sent, hsends]
        rfl
      · rw [tally_snoc (k := k) (by rfl) (by rfl) (by rfl) (by rfl), h.tally]
        simpa using hfate
    · exact (h.others id' hid).snoc rfl rfl rfl rfl (by rfl) (hother id' hid)

theorem Arrived.delivered (h : Arrived k id) {src dst : NodeId} {seq : ℕ}
    (hallow : k.faults.isCrashed dst = false ∧ k.faults.isPartitioned src dst = false) :
    Sound (k.recordAs seq fun time seq => .deliver time seq id src dst) :=
  h.settle rfl hallow rfl (fun id' hid => ⟨rfl, by simpa [TraceEvent.delivers] using Ne.symm hid, rfl⟩)
    (by simpa [TraceEvent.drops, TraceEvent.delivers] using Fate.delivered)

/-- nobody is registered where the message arrived -/
theorem Arrived.unclaim (h : Arrived k id) : Sound { k with unclaimed := k.unclaimed ++ [id] } where
  agenda := h.agenda
  clock := h.clock
  times := h.times
  faults := h.faults
  lawful := h.lawful
  accounted := fun id' => by
    by_cases hid : id' = id
    · subst hid
      refine accounted_of_fate h.known h.sent ?_
      have htally : Kernel.tally { k with unclaimed := k.unclaimed ++ [id'] } id' = ⟨false, 0, 0, 0, 1⟩ := by
        have hun : k.unclaimed.count id' = 0 := congrArg Tally.unclaimed h.tally
        have hsame : Kernel.tally { k with unclaimed := k.unclaimed ++ [id'] } id' =
            { k.tally id' with unclaimed := (k.unclaimed ++ [id']).count id' } := rfl
        rw [hsame, h.tally, List.count_append, hun]
        simp
      rw [htally]
      exact .unclaimed
    · refine (h.others id' hid).same (by rfl) (by rfl) ?_
      have hun : (k.unclaimed ++ [id]).count id' = k.unclaimed.count id' := by
        rw [List.count_append, List.count_singleton]
        simp [Ne.symm hid]
      show Tally.mk _ _ _ _ _ = Tally.mk _ _ _ _ _
      rw [Tally.mk.injEq]
      exact ⟨rfl, rfl, rfl, rfl, hun⟩

/-- **A message arrives**: the faults may still stop it, or its destination takes it, or nobody does. -/
theorem dispatchMessageArrival_sound (hn : Harness N G M R) {envelope : Envelope M}
    (hfly : k.inFlight.lookup id = some envelope) (h : Arrived { k with inFlight := k.inFlight.erase id } id)
    (seq : ℕ) : Sound (k.dispatchMessageArrival hn id seq) := by
  unfold Kernel.dispatchMessageArrival
  rw [hfly]
  dsimp only
  have hdrop : ∀ src dst reason, Sound (Kernel.recordAs { k with inFlight := k.inFlight.erase id } seq
      fun time seq => .drop time seq id src dst reason) := fun src dst reason =>
    h.settle rfl trivial rfl (fun id' hid => ⟨rfl, rfl, by simpa [TraceEvent.drops] using Ne.symm hid⟩)
      (by simpa [TraceEvent.drops, TraceEvent.delivers] using Fate.dropped)
  by_cases hdown : k.faults.isCrashed envelope.info.dst = true
  · rw [if_pos hdown]
    exact hdrop _ _ _
  rw [if_neg hdown]
  by_cases hcut : k.faults.isPartitioned envelope.info.src envelope.info.dst = true
  · rw [if_pos hcut]
    exact hdrop _ _ _
  rw [if_neg hcut]
  split
  · exact h.unclaim
  · apply perform_sound
    exact h.delivered ⟨Bool.eq_false_iff.2 hdown, Bool.eq_false_iff.2 hcut⟩

/-- a timer or a fault is taken from the agenda -/
theorem Sound.taken (h : Sound k) {e : ScheduledEvent} {queue : List ScheduledEvent} (hq : k.queue = e :: queue)
    (hkind : ∀ id, e.kind.arrives id = false) :
    Sound { k with now := e.time, queue := queue, dispatched := k.dispatched ++ [e] } where
  agenda := Ordered.take (hq ▸ h.agenda)
  clock := h.times e (by rw [hq]; exact List.mem_cons_self)
  times := fun x hx => h.times x (by rw [hq]; exact List.mem_cons_of_mem _ hx)
  faults := h.faults
  lawful := h.lawful
  accounted := fun id => by
    refine (h.accounted id).same (by rfl) (by rfl) ?_
    show Tally.mk _ _ _ _ _ = Tally.mk _ _ _ _ _
    rw [hq, List.countP_cons, hkind id]
    rfl

/-- an arrival is taken from the agenda: the message was in flight, and is not any more -/
theorem Sound.arrives (h : Sound k) {e : ScheduledEvent} {queue : List ScheduledEvent} (hq : k.queue = e :: queue)
    (hkind : e.kind = .messageArrival id) : (∃ envelope, k.inFlight.lookup id = some envelope) ∧
      Arrived
        { k with
          now := e.time
          queue := queue
          dispatched := k.dispatched ++ [e]
          inFlight := k.inFlight.erase id } id := by
  have harr : (k.tally id).arrivals = queue.countP (·.kind.arrives id) + 1 := by
    show k.queue.countP (·.kind.arrives id) = _
    rw [hq, List.countP_cons, hkind]
    simp [EventKind.arrives]
  -- of the four fates only one has an arrival
  have hfly : id < k.nextMessageId ∧ k.sent id = 1 ∧ k.tally id = ⟨true, 1, 0, 0, 0⟩ := by
    have hacc := h.accounted id
    unfold Accounted at hacc
    split_ifs at hacc with hlt
    · refine ⟨hlt, hacc.1, ?_⟩
      generalize k.tally id = tally at hacc harr
      cases hacc.2 with
      | inFlight => rfl
      | delivered => exact absurd harr (by simp)
      | dropped => exact absurd harr (by simp)
      | unclaimed => exact absurd harr (by simp)
    · rw [hacc.2] at harr
      exact absurd harr (by simp)
  obtain ⟨hlt, hsent, htally⟩ := hfly
  refine ⟨Option.isSome_iff_exists.1 (congrArg Tally.inFlight htally), ?_⟩
  refine
    { agenda := Ordered.take (hq ▸ h.agenda)
      clock := h.times e (by rw [hq]; exact List.mem_cons_self)
      times := fun x hx => h.times x (by rw [hq]; exact List.mem_cons_of_mem _ hx)
      faults := h.faults
      lawful := h.lawful
      known := hlt
      sent := hsent
      tally := ?_
      others := fun id' hid => ?_ }
  · have hrest : queue.countP (·.kind.arrives id) = 0 := by
      rw [htally] at harr
      exact (Nat.succ.inj harr).symm
    show Tally.mk _ _ _ _ _ = _
    rw [Tally.mk.injEq]
    refine ⟨?_, hrest, congrArg Tally.delivered htally, congrArg Tally.dropped htally, congrArg Tally.unclaimed htally⟩
    rw [AList.lookup_erase]
    rfl
  · refine (h.accounted id').same (by rfl) (by rfl) ?_
    show Tally.mk _ _ _ _ _ = Tally.mk _ _ _ _ _
    rw [Tally.mk.injEq]
    refine ⟨by rw [AList.lookup_erase_ne hid], ?_, rfl, rfl, rfl⟩
    rw [hq, List.countP_cons, hkind]
    simp [EventKind.arrives, Ne.symm hid]

/-- **One turn of the event loop** -/
theorem dispatch_sound (h : Sound k) (hn : Harness N G M R) : Sound (k.dispatch hn) := by
  unfold Kernel.dispatch
  cases hq : k.queue with
  | nil => exact h
  | cons e queue =>
    dsimp only
    unfold Kernel.handle
    cases hkind : e.kind with
    | timer node timerId => exact dispatchTimer_sound (h.taken hq fun id => by rw [hkind]; rfl) hn node timerId e.seq
    | fault cmd => exact applyFaultCommand_sound (h.taken hq fun id => by rw [hkind]; rfl) hn cmd
    | messageArrival id =>
      obtain ⟨⟨envelope, henv⟩, harrived⟩ := h.arrives hq hkind
      apply dispatchMessageArrival_sound hn
      · exact henv
      · exact harrived

theorem setLeader_sound (h : Sound k) (leader : Option NodeId) : Sound (k.setLeader leader) := by
  have hlead : Sound { k with leader := leader } := h.frame k.nodes k.shared leader k.halted
  exact hlead.record (fun _ => ⟨rfl, rfl, rfl⟩) rfl trivial

/-! ## Runs -/

/-- **Step lemma.** -/
theorem sound_step (h : Sound k) (hn : Harness N G M R) (op : KernelOp N M) : Sound (k.step hn op) := by
  unfold Kernel.step
  split_ifs
  · exact h
  cases op with
  | addNode id node => exact h.frame (Function.update k.nodes id (some node)) k.shared k.leader k.halted
  | setLeader leader => exact setLeader_sound h leader
  | injectMessage src dst payload => exact send_sound h hn src dst payload
  | injectTimer node after timerId => exact scheduleTimer_sound h node after timerId
  | fault cmd => exact applyFaultCommand_sound h hn cmd
  | scheduleFault time cmd =>
    dsimp only [Kernel.scheduleFault]
    split_ifs with hpast
    · exact h.frame k.nodes k.shared k.leader (some .faultInPast)
    · exact h.push (not_lt.1 hpast) (Nat.le_pred_of_lt time.toNat_lt) fun _ => rfl
  | dispatch => exact dispatch_sound h hn

/-- **Run lemma.** -/
theorem sound_run (h : Sound k) (hn : Harness N G M R) (ops : List (KernelOp N M)) :
    Sound (Runs.run (Kernel.step hn) k ops) :=
  Runs.run_invariant (I := Sound) (fun _ op h _ => sound_step h hn op) h (Runs.along_true _ _ ops)

/-! ## What a turn does -/

/-- what is new on the agenda is later than now, unless the clock is at its end -/
def Later (k k' : Kernel N G M) : Prop :=
  ∃ fresh, k'.queue.Perm (fresh ++ k.queue) ∧ (k.now < MAX → ∀ e ∈ fresh, k.now < e.time)

theorem Later.same (h : k'.queue = k.queue) : Later k k' := ⟨[], by rw [h]; exact .refl _, fun _ e he => by cases he⟩

theorem Later.trans {k'' : Kernel N G M} (h : Later k k') (h' : Later k' k'') (hnow : k'.now = k.now) : Later k k'' := by
  obtain ⟨fresh, hperm, hlater⟩ := h
  obtain ⟨fresh', hperm', hlater'⟩ := h'
  refine ⟨fresh' ++ fresh, ?_, fun hlt e he => ?_⟩
  · rw [List.append_assoc]
    exact hperm'.trans (hperm.append_left fresh')
  · rcases List.mem_append.1 he with he | he
    · rw [← hnow]
      exact hlater' (by rwa [hnow]) e he
    · exact hlater hlt e he

/-- an event is scheduled a while ahead -/
theorem later_schedule {delay seq : ℕ} {kind : EventKind} (hd : 0 < delay)
    (h : k'.queue = schedule ⟨advance k.now delay, seq, kind⟩ k.queue) : Later k k' := by
  refine ⟨[⟨advance k.now delay, seq, kind⟩], by rw [h]; exact schedule_perm _ _, fun hlt e he => ?_⟩
  rw [List.mem_singleton.1 he]
  exact lt_advance hlt hd

theorem Later.mem (h : Later k k') (hlt : k.now < MAX) {e : ScheduledEvent} (he : e ∈ k'.queue) :
    e ∈ k.queue ∨ k.now < e.time := by
  obtain ⟨fresh, hperm, hlater⟩ := h
  rcases List.mem_append.1 (hperm.mem_iff.1 he) with he | he
  · exact .inr (hlater hlt e he)
  · exact .inl he

/-- what carrying out effects leaves alone: all but the agenda, the network and the trace -/
structure Carried (k k' : Kernel N G M) : Prop where
  nodes : k'.nodes = k.nodes
  shared : k'.shared = k.shared
  faults : k'.faults = k.faults
  now : k'.now = k.now
  halted : k'.halted = k.halted
  later : Later k k'

theorem Carried.refl (k : Kernel N G M) : Carried k k := ⟨rfl, rfl, rfl, rfl, rfl, .same rfl⟩

theorem Carried.trans {k'' : Kernel N G M} (h : Carried k k') (h' : Carried k' k'') : Carried k k'' where
  nodes := h'.nodes.trans h.nodes
  shared := h'.shared.trans h.shared
  faults := h'.faults.trans h.faults
  now := h'.now.trans h.now
  halted := h'.halted.trans h.halted
  later := h.later.trans h'.later h.now

theorem scheduleTimer_carries (node : NodeId) (after : ℕ) (timerId : TimerId) (k : Kernel N G M) :
    Carried k (k.scheduleTimer node after timerId) where
  nodes := rfl
  shared := rfl
  faults := rfl
  now := rfl
  halted := rfl
  later := later_schedule (by omega) rfl

theorem send_carries (hn : Harness N G M R) (src dst : NodeId) (payload : M) (k : Kernel N G M) :
    Carried k (k.send hn src dst payload) := by
  unfold Kernel.send
  dsimp only
  split_ifs
  · exact ⟨rfl, rfl, rfl, rfl, rfl, .same rfl⟩
  · exact ⟨rfl, rfl, rfl, rfl, rfl, .same rfl⟩
  · split
    · exact ⟨rfl, rfl, rfl, rfl, rfl, later_schedule (lt_max_of_lt_right Nat.one_pos) rfl⟩
    · exact ⟨rfl, rfl, rfl, rfl, rfl, .same rfl⟩

theorem effects_carry (hn : Harness N G M R) (i : NodeId) (fx : List (Effect M)) (k : Kernel N G M) :
    Carried k (fx.foldl (Kernel.effect hn i) k) := by
  induction fx generalizing k with
  | nil => exact .refl k
  | cons f fx ih =>
    have hone : Carried k (k.effect hn i f) := by
      cases f with
      | send dst payload => exact send_carries hn i dst payload k
      | timer after id => exact scheduleTimer_carries i after id k
    exact hone.trans (ih _)

/-- a callback returned `r` -/
def Called (b : Behaviour N G M R) (ctx : Ctx R) (nd : N) (g : G) (r : N × G × List (Effect M)) : Prop :=
  (∃ src payload, b.onMessage ctx src payload nd g = .ok r) ∨ (∃ id, b.onTimer ctx id nd g = .ok r) ∨
    b.onRestart ctx nd g = .ok r

/-- what a turn of the kernel, or a fault, does: nothing to what the nodes share, or one callback -/
structure Turned (b : Behaviour N G M R) (k k' : Kernel N G M) : Prop where
  now : k'.now = k.now
  later : Later k k'
  shared : k'.shared = k.shared ∨
    ∃ i nd rng r, k.nodes i = some nd ∧ Called b ⟨i, k.now, rng⟩ nd k.shared r ∧ k'.shared = r.2.1

theorem Turned.same {b : Behaviour N G M R} (hnow : k'.now = k.now) (hqueue : k'.queue = k.queue)
    (hshared : k'.shared = k.shared) : Turned b k k' :=
  ⟨hnow, .same hqueue, .inl hshared⟩

/-- a callback, whatever the kernel records before it -/
theorem perform_turned {k₀ : Kernel N G M} (hn : Harness N G M R) {i : NodeId} {nd : N} {rng : R} {o : Outcome N G M}
    (hnow : k₀.now = k.now) (hqueue : k₀.queue = k.queue) (hshared : k₀.shared = k.shared) (hnd : k.nodes i = some nd)
    (ho : ∀ r, o = .ok r → Called hn.behaviour ⟨i, k.now, rng⟩ nd k.shared r) :
    Turned hn.behaviour k (k₀.perform hn i o) := by
  cases o with
  | error e => exact .same hnow hqueue hshared
  | ok r =>
    have hc := effects_carry hn i r.2.2 { k₀ with nodes := Function.update k₀.nodes i (some r.1), shared := r.2.1 }
    obtain ⟨fresh, hperm, hlater⟩ := hc.later
    exact ⟨hc.now.trans hnow, ⟨fresh, by rw [← hqueue]; exact hperm, by rw [← hnow]; exact hlater⟩,
      .inr ⟨i, nd, rng, r, hnd, ho r rfl, hc.shared⟩⟩

theorem applyFaultCommand_turned (hn : Harness N G M R) (k : Kernel N G M) (cmd : FaultCommand) :
    Turned hn.behaviour k (k.applyFaultCommand hn cmd) := by
  unfold Kernel.applyFaultCommand
  cases cmd with
  | restart node =>
    dsimp only
    split
    · exact .same rfl rfl rfl
    · next nd hnd => exact perform_turned hn rfl rfl rfl hnd fun r hr => .inr (.inr hr)
  | crash node => exact .same rfl rfl rfl
  | partition a b => exact .same rfl rfl rfl
  | heal => exact .same rfl rfl rfl
  | slowNode node multiplier => exact .same rfl rfl rfl
  | clearSlow node => exact .same rfl rfl rfl

theorem handle_turned (hn : Harness N G M R) (e : ScheduledEvent) (k : Kernel N G M) :
    Turned hn.behaviour k (k.handle hn e) := by
  unfold Kernel.handle
  split
  · unfold Kernel.dispatchTimer
    split_ifs
    · exact .same rfl rfl rfl
    · split
      · exact .same rfl rfl rfl
      · next nd hnd => exact perform_turned hn rfl rfl rfl hnd fun r hr => .inr (.inl ⟨_, hr⟩)
  · unfold Kernel.dispatchMessageArrival
    split
    · exact .same rfl rfl rfl
    · dsimp only
      split_ifs
      · exact .same rfl rfl rfl
      · exact .same rfl rfl rfl
      · split
        · exact .same rfl rfl rfl
        · next nd hnd => exact perform_turned hn rfl rfl rfl hnd fun r hr => .inl ⟨_, _, hr⟩
  · exact applyFaultCommand_turned hn k _

theorem effects_dispatched (hn : Harness N G M R) (i : NodeId) (fx : List (Effect M)) (k : Kernel N G M) :
    (fx.foldl (Kernel.effect hn i) k).dispatched = k.dispatched := by
  induction fx generalizing k with
  | nil => rfl
  | cons f fx ih =>
    rw [List.foldl_cons, ih]
    cases f with
    | timer after id => rfl
    | send dst payload =>
      unfold Kernel.effect Kernel.send
      dsimp only
      split_ifs
      · rfl
      · rfl
      · split <;> rfl

theorem perform_dispatched (hn : Harness N G M R) (i : NodeId) (k : Kernel N G M) (o : Outcome N G M) :
    (k.perform hn i o).dispatched = k.dispatched := by
  cases o with
  | error e => rfl
  | ok r => exact effects_dispatched hn i r.2.2 _

/-- only the loop takes events from the agenda -/
theorem handle_dispatched (hn : Harness N G M R) (e : ScheduledEvent) (k : Kernel N G M) :
    (k.handle hn e).dispatched = k.dispatched := by
  unfold Kernel.handle
  split
  · unfold Kernel.dispatchTimer
    split_ifs
    · rfl
    · split
      · rfl
      · exact perform_dispatched ..
  · unfold Kernel.dispatchMessageArrival
    split
    · rfl
    · dsimp only
      split_ifs
      · rfl
      · rfl
      · split
        · rfl
        · exact perform_dispatched ..
  · next cmd _ =>
    unfold Kernel.applyFaultCommand
    cases cmd with
    | restart node =>
      dsimp only
      split
      · rfl
      · exact perform_dispatched ..
    | crash node => rfl
    | partition a b => rfl
    | heal => rfl
    | slowNode node multiplier => rfl
    | clearSlow node => rfl

theorem perform_shared (hn : Harness N G M R) (i : NodeId) (k : Kernel N G M) (o : Outcome N G M) :
    (k.perform hn i o).shared = k.shared ∨ ∃ r, o = .ok r ∧ (k.perform hn i o).shared = r.2.1 := by
  cases o with
  | error e => exact .inl rfl
  | ok r => exact .inr ⟨r, rfl, (effects_carry hn i r.2.2 _).shared⟩

/-- a fault runs no callback but a restart's -/
theorem applyFaultCommand_shared (hn : Harness N G M R) (k : Kernel N G M) (cmd : FaultCommand) :
    (k.applyFaultCommand hn cmd).shared = k.shared ∨
      ∃ i nd rng r, k.nodes i = some nd ∧ hn.behaviour.onRestart ⟨i, k.now, rng⟩ nd k.shared = .ok r ∧
        (k.applyFaultCommand hn cmd).shared = r.2.1 := by
  unfold Kernel.applyFaultCommand
  cases cmd with
  | restart node =>
    dsimp only
    split
    · exact .inl rfl
    · next nd hnd =>
      rcases perform_shared hn node ({ k with faults := k.faults.restart node }.record fun time seq =>
        .restart time seq node) (hn.behaviour.onRestart ⟨node, k.now, hn.rng k.nextSeq⟩ nd k.shared) with
        hsame | ⟨r, hr, hshared⟩
      · exact .inl hsame
      · exact .inr ⟨node, nd, _, r, hnd, hr, hshared⟩
  | crash node => exact .inl rfl
  | partition a b => exact .inl rfl
  | heal => exact .inl rfl
  | slowNode node multiplier => exact .inl rfl
  | clearSlow node => exact .inl rfl

/-! ## The clock -/

@[simp] theorem handle_now (hn : Harness N G M R) (e : ScheduledEvent) (k : Kernel N G M) :
    (k.handle hn e).now = k.now := (handle_turned hn e k).now

theorem dispatch_now (h : Sound k) (hn : Harness N G M R) : k.now ≤ (k.dispatch hn).now := by
  unfold Kernel.dispatch
  cases hq : k.queue with
  | nil => exact le_rfl
  | cons e queue =>
    dsimp only
    rw [handle_now]
    exact h.agenda.due e (by rw [hq]; exact List.mem_cons_self)

theorem step_now (h : Sound k) (hn : Harness N G M R) (op : KernelOp N M) : k.now ≤ (k.step hn op).now := by
  unfold Kernel.step
  split_ifs
  · exact le_rfl
  cases op with
  | dispatch => exact dispatch_now h hn
  | injectMessage src dst payload => exact (send_carries hn src dst payload k).now.ge
  | fault cmd => exact (applyFaultCommand_turned hn k cmd).now.ge
  | addNode id node => exact le_rfl
  | setLeader leader => exact le_rfl
  | injectTimer node after timerId => exact le_rfl
  | scheduleFault time cmd =>
    dsimp only [Kernel.scheduleFault]
    split_ifs
    · exact le_rfl
    · exact le_rfl

/-- the clock never goes back -/
theorem run_now (h : Sound k) (hn : Harness N G M R) (ops : List (KernelOp N M)) :
    k.now ≤ (Runs.run (Kernel.step hn) k ops).now := by
  induction ops generalizing k with
  | nil => exact le_rfl
  | cons op ops ih => exact (step_now h hn op).trans (ih (sound_step h hn op))

/-! ## Running until an instant -/

variable {limit fuel : ℕ}

/-- **Rule of `run_until`.** What every turn preserves that is due, the run preserves. -/
theorem runUntil_invariant {I : Kernel N G M → Prop} (hn : Harness N G M R)
    (hI : ∀ k : Kernel N G M, I k → k.halted = none → k.due limit = true → I (k.dispatch hn)) (h : I k)
    (hr : k.runUntil hn limit fuel = some k') : I k' := by
  induction fuel generalizing k with
  | zero =>
    unfold Kernel.runUntil at hr
    split_ifs at hr
    obtain rfl := Option.some.inj hr
    exact h
  | succ fuel ih =>
    unfold Kernel.runUntil at hr
    split_ifs at hr with hend
    · obtain rfl := Option.some.inj hr
      exact h
    · have hgo : k.halted = none ∧ k.due limit = true := by simpa using hend
      exact ih (hI k h hgo.1 hgo.2) hr

/-- the run is over because of a panic, or because nothing is due -/
theorem runUntil_ends {hn : Harness N G M R} (hr : k.runUntil hn limit fuel = some k') :
    k'.halted ≠ none ∨ k'.due limit = false := by
  induction fuel generalizing k with
  | zero =>
    unfold Kernel.runUntil at hr
    split_ifs at hr with hend
    obtain rfl := Option.some.inj hr
    simpa [Option.isSome_iff_ne_none] using hend
  | succ fuel ih =>
    unfold Kernel.runUntil at hr
    split_ifs at hr with hend
    · obtain rfl := Option.some.inj hr
      simpa [Option.isSome_iff_ne_none] using hend
    · exact ih hr

theorem not_due (hs : Sound k) (h : k.due limit = false) : ∀ e ∈ k.queue, limit < e.time := by
  intro e he
  unfold Kernel.due at h
  have hsorted := hs.agenda.sorted
  cases hq : k.queue with
  | nil => rw [hq] at he; cases he
  | cons x queue =>
    rw [hq] at h he hsorted
    have hx : limit < x.time := by simpa using h
    rcases List.mem_cons.1 he with rfl | he
    · exact hx
    · have hlt := (List.pairwise_cons.1 hsorted).1 e he
      unfold Entry.Before at hlt
      omega

theorem due_head (h : k.due limit = true) : ∃ e queue, k.queue = e :: queue ∧ e.time ≤ limit := by
  unfold Kernel.due at h
  cases hq : k.queue with
  | nil => rw [hq] at h; cases h
  | cons e queue => rw [hq] at h; exact ⟨e, queue, rfl, of_decide_eq_true h⟩

/-- what is due stays due under a later limit -/
theorem due_mono {a b : ℕ} (hab : a ≤ b) (h : k.due a = true) : k.due b = true := by
  obtain ⟨e, queue, hq, hle⟩ := due_head h
  rw [Kernel.due, hq]
  exact decide_eq_true (hle.trans hab)

/-- the events of one instant -/
def Kernel.present (k : Kernel N G M) (time : ℕ) : ℕ := k.queue.countP fun e => e.time = time

/-- a turn uses up one event of its instant and leaves only events that are not earlier -/
theorem dispatch_uses (hn : Harness N G M R) (hs : Sound k) {e : ScheduledEvent} {queue : List ScheduledEvent}
    (hq : k.queue = e :: queue) (hlt : e.time < MAX) : (∀ x ∈ (k.dispatch hn).queue, e.time ≤ x.time) ∧
      (k.dispatch hn).present e.time + 1 = k.present e.time := by
  have hturn := handle_turned hn e { k with now := e.time, queue := queue, dispatched := k.dispatched ++ [e] }
  have hdispatch : k.dispatch hn =
      { k with now := e.time, queue := queue, dispatched := k.dispatched ++ [e] }.handle hn e := by
    unfold Kernel.dispatch
    rw [hq]
  rw [hdispatch]
  obtain ⟨fresh, hperm, hlater⟩ := hturn.later
  refine ⟨fun x hx => ?_, ?_⟩
  · rcases List.mem_append.1 (hperm.mem_iff.1 hx) with hx | hx
    · exact (hlater hlt x hx).le
    · have hbefore := hs.agenda.sorted
      rw [hq] at hbefore
      have hlt := (List.pairwise_cons.1 hbefore).1 x hx
      unfold Entry.Before at hlt
      omega
  · have hnone : fresh.countP (fun x => x.time = e.time) = 0 := by
      apply List.countP_eq_zero.2
      intro x hx
      have := hlater hlt x hx
      simp only [decide_eq_true_eq]
      exact (show e.time < x.time from this).ne'
    unfold Kernel.present
    rw [hperm.countP_eq, List.countP_append, hnone, zero_add, hq, List.countP_cons]
    simp

/-- **`run_until` returns** when the instant is before the end of the clock: a turn schedules only for later instants, so
it uses up one of the finitely many events of its own. -/
theorem runUntil_returns (hn : Harness N G M R) (hs : Sound k) (hlimit : limit < MAX) :
    ∃ fuel, (k.runUntil hn limit fuel).isSome = true := by
  -- a kernel that is not due has returned
  have hover : ∀ k : Kernel N G M, k.halted ≠ none ∨ k.due limit = false →
      ∃ fuel, (k.runUntil hn limit fuel).isSome = true := by
    intro k hk
    refine ⟨0, ?_⟩
    unfold Kernel.runUntil
    rw [if_pos (by simpa [Option.isSome_iff_ne_none] using hk)]
    rfl
  -- on the number of instants left
  suffices h : ∀ (left : ℕ) (k : Kernel N G M), Sound k → (∀ e ∈ k.queue.head?, e.time ≤ limit → limit - e.time < left) →
      ∃ fuel, (k.runUntil hn limit fuel).isSome = true by
    exact h (limit + 1) k hs fun e _ _ => by omega
  intro left
  induction left with
  | zero =>
    intro k hs hhead
    apply hover
    by_contra hgo
    push Not at hgo
    obtain ⟨e, queue, hq, hle⟩ := due_head (Bool.eq_true_of_not_eq_false hgo.2)
    exact Nat.not_lt_zero _ (hhead e (by rw [hq]; rfl) hle)
  | succ left ih =>
    -- and on the number of events of the present instant
    suffices h : ∀ (here : ℕ) (k : Kernel N G M), Sound k →
        (∀ e ∈ k.queue.head?, e.time ≤ limit → limit - e.time < left + 1) →
        (∀ e ∈ k.queue.head?, e.time ≤ limit → limit - e.time = left → k.present e.time ≤ here) →
        ∃ fuel, (k.runUntil hn limit fuel).isSome = true by
      intro k hs hhead
      cases hq : k.queue with
      | nil => exact h 0 k hs hhead fun e he => by rw [hq] at he; cases he
      | cons e queue =>
        refine h (k.present e.time) k hs hhead fun x hx _ _ => ?_
        rw [hq] at hx
        rw [← Option.some.inj hx]
    intro here
    induction here with
    | zero =>
      intro k hs hhead hpresent
      refine ih k hs fun e he hle => lt_of_le_of_ne (Nat.lt_succ_iff.1 (hhead e he hle)) fun heq => ?_
      have hmem : e ∈ k.queue := List.mem_of_mem_head? he
      exact absurd (hpresent e he hle heq) (not_le.2 (List.countP_pos_iff.2 ⟨e, hmem, by simp⟩))
    | succ here ih' =>
      intro k hs hhead hpresent
      by_cases hend : k.halted ≠ none ∨ k.due limit = false
      · exact hover k hend
      push Not at hend
      obtain ⟨e, queue, hq, hle⟩ := due_head (Bool.eq_true_of_not_eq_false hend.2)
      have he : e ∈ k.queue.head? := by rw [hq]; rfl
      obtain ⟨hafter, huse⟩ := dispatch_uses hn hs hq (hle.trans_lt hlimit)
      obtain ⟨fuel, hfuel⟩ := ih' (k.dispatch hn) (dispatch_sound hs hn)
        (fun x hx hxle => by
          have hx' := hafter x (List.mem_of_mem_head? hx)
          have := hhead e he hle
          omega)
        (fun x hx hxle heq => by
          have hx' := hafter x (List.mem_of_mem_head? hx)
          have hlast := hhead e he hle
          -- the next event is of the same instant
          have hsame : x.time = e.time := by omega
          have := hpresent e he hle (by omega)
          rw [hsame]
          omega)
      refine ⟨fuel + 1, ?_⟩
      unfold Kernel.runUntil
      rw [if_neg (by simp [hend.1, Bool.eq_true_of_not_eq_false hend.2])]
      exact hfuel

/-! ## The account -/

/-- **The kernel's account**, in every run of a kernel, whatever its nodes, its scheduler and its driver do: every message
that was sent has exactly one fate, every delivery and every timer was allowed by the faults in force, the events are
dispatched in the order of their distinct stamps, and the clock never goes back. -/
theorem every_message_accounted (hn : Harness N G M R) (shared : G) (ops : List (KernelOp N M)) :
    (∀ id, (Runs.run (Kernel.step hn) (Kernel.new shared) ops).sent id = 1 ∧
        Fate ((Runs.run (Kernel.step hn) (Kernel.new shared) ops).tally id) ∨
      (Runs.run (Kernel.step hn) (Kernel.new shared) ops).sent id = 0 ∧
        (Runs.run (Kernel.step hn) (Kernel.new shared) ops).tally id = ⟨false, 0, 0, 0, 0⟩) ∧
    (∀ pre ev post, (Runs.run (Kernel.step hn) (Kernel.new shared) ops).trace = pre ++ ev :: post →
      ev.Allowed (FaultState.replay pre)) ∧
    (Runs.run (Kernel.step hn) (Kernel.new shared) ops).faults =
      FaultState.replay (Runs.run (Kernel.step hn) (Kernel.new shared) ops).trace ∧
    (Runs.run (Kernel.step hn) (Kernel.new shared) ops).dispatched.Pairwise Entry.Before ∧
    (((Runs.run (Kernel.step hn) (Kernel.new shared) ops).dispatched ++
      (Runs.run (Kernel.step hn) (Kernel.new shared) ops).queue).map Entry.seq).Nodup ∧
    ∀ more, (Runs.run (Kernel.step hn) (Kernel.new shared) ops).now ≤
      (Runs.run (Kernel.step hn) (Kernel.new shared) (ops ++ more)).now := by
  have h : Sound (Runs.run (Kernel.step hn) (Kernel.new shared) ops) := sound_run (sound_new shared) hn ops
  refine ⟨fun id => ?_, h.lawful, h.faults, h.agenda.past, h.agenda.distinct, fun more => ?_⟩
  · have hacc := h.accounted id
    unfold Accounted at hacc
    split_ifs at hacc
    · exact .inl hacc
    · exact .inr hacc
  · rw [Runs.run_append]
    exact run_now h hn more

end Queso.Sim
