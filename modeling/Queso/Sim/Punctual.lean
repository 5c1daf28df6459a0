/-
A kernel on a punctual network: nothing is partitioned or slow, and the scheduler loses no message and delays none for
more than `D` ticks, as `Fifo` and `RandomScheduler` do.

`voyages` lists the messages in flight with the times of their arrivals. On a punctual network a callback's messages to
live nodes all set out and arrive within `D` ticks (`effects_speed`). `turn_cases` is all that a turn of the event loop
does there when no fault is on the agenda: the soonest timer or the soonest arrival is taken, nothing else is lost, and
one callback runs, or nobody is there to run it.
-/
import Queso.Sim.Refinement

namespace Queso.Sim

open Agenda

/-! ## Schedulers that lose nothing -/

/-- a fixed delay for every message -/
structure Fifo where
  delay : ℕ
deriving DecidableEq, Repr

def Fifo.new (delay : ℕ) : Fifo := ⟨max delay 1⟩

def Fifo.onSend (s : Fifo) (_ : EnvelopeMeta) (_ : SchedulerCtx) : Decision := .deliver s.delay

/-- a random delay for each message -/
structure RandomScheduler where
  minDelay : ℕ
  maxDelay : ℕ
  range : minDelay ≤ maxDelay

def RandomScheduler.new (minDelay maxDelay : ℕ) : RandomScheduler :=
  ⟨max minDelay 1, max maxDelay (max minDelay 1), le_max_right _ _⟩

/-- what `gen_range` yields for each message -/
abbrev RandomScheduler.Draws (s : RandomScheduler) : Type := MessageId → { d : ℕ // s.minDelay ≤ d ∧ d ≤ s.maxDelay }

def RandomScheduler.onSend (s : RandomScheduler) (draws : s.Draws) (info : EnvelopeMeta) (_ : SchedulerCtx) : Decision :=
  .deliver (draws info.id)

/-- an oblivious scheduler is shown the envelope without its payload -/
def oblivious {M : Type} (onSend : EnvelopeMeta → SchedulerCtx → Decision) (envelope : Envelope M) (ctx : SchedulerCtx) :
    Decision :=
  onSend envelope.info ctx

/-- no message is lost, and none is delayed for more than `D` ticks -/
def Punctual {M : Type} (D : ℕ) (decide : Envelope M → SchedulerCtx → Decision) : Prop :=
  ∀ envelope ctx, ∃ delay, delay ≤ D ∧ decide envelope ctx = .deliver delay

theorem Fifo.punctual {M : Type} (delay : ℕ) :
    Punctual (M := M) (max delay 1) (oblivious (Fifo.new delay).onSend) :=
  fun _ _ => ⟨max delay 1, le_rfl, rfl⟩

theorem RandomScheduler.punctual {M : Type} (s : RandomScheduler) (draws : s.Draws) :
    Punctual (M := M) s.maxDelay (oblivious (s.onSend draws)) :=
  fun envelope _ => ⟨draws envelope.info.id, (draws envelope.info.id).2.2, rfl⟩

variable {N G M R : Type}

/-! ## Messages in flight, with the times of their arrivals -/

namespace Kernel

/-- the message that an event of the agenda delivers, and when -/
def voyageOf (k : Kernel N G M) (e : ScheduledEvent) : Option (ℕ × Queso.Envelope M) :=
  match e.kind with
  | .messageArrival id => (k.inFlight.lookup id).map fun envelope => (e.time, envelope.erase)
  | _ => none

def voyages (k : Kernel N G M) : Multiset (ℕ × Queso.Envelope M) := ↑(k.queue.filterMap k.voyageOf)

/-- how many messages were sent -/
def messageCount (k : Kernel N G M) : ℕ := k.trace.countP fun | .send .. => true | _ => false

/-- no path is cut and no node is slow -/
structure Calm (k : Kernel N G M) : Prop where
  whole : k.faults.partition = none
  prompt : k.faults.slow = ∅

theorem Calm.joined {k : Kernel N G M} (h : k.Calm) (i j : NodeId) : k.faults.isPartitioned i j = false := by
  unfold FaultState.isPartitioned
  rw [h.whole]

theorem Calm.multiplier {k : Kernel N G M} (h : k.Calm) (i j : NodeId) : k.faults.slowMultiplier i j = 1 := by
  unfold FaultState.slowMultiplier
  rw [h.prompt]
  rfl

end Kernel

variable {k k' : Kernel N G M} {D : ℕ}

/-- nothing on the agenda is due sooner than its head -/
theorem soonest (hs : Sound k) {e : ScheduledEvent} {queue : List ScheduledEvent} (hq : k.queue = e :: queue)
    {x : ScheduledEvent} (hx : x ∈ k.queue) : e.time ≤ x.time := by
  have hsorted := hs.agenda.sorted
  rw [hq] at hsorted hx
  rcases List.mem_cons.1 hx with rfl | hx
  · exact le_rfl
  · have hbefore := (List.pairwise_cons.1 hsorted).1 x hx
    unfold Entry.Before at hbefore
    omega

/-- a message in flight arrives by an event of the agenda -/
theorem scheduled_voyage {v : ℕ × Queso.Envelope M} (hv : v ∈ k.voyages) : ∃ x ∈ k.queue, x.time = v.1 := by
  obtain ⟨x, hx, hof⟩ := List.mem_filterMap.1 (Multiset.mem_coe.1 hv)
  refine ⟨x, hx, ?_⟩
  unfold Kernel.voyageOf at hof
  split at hof
  · obtain ⟨envelope, -, rfl⟩ := Option.map_eq_some_iff.1 hof
    rfl
  · cases hof

theorem scheduled_timer {t : PendingTimer} (ht : t ∈ k.pending) : ∃ x ∈ k.queue, x.time = t.fireAt := by
  obtain ⟨x, hx, hof⟩ := List.mem_filterMap.1 (Multiset.mem_coe.1 ht)
  refine ⟨x, hx, ?_⟩
  unfold pendingOf at hof
  split at hof
  · obtain rfl := Option.some.inj hof
    rfl
  · cases hof

/-- a message in flight is due no sooner than the next event -/
theorem soonest_voyage (hs : Sound k) {e : ScheduledEvent} {queue : List ScheduledEvent} (hq : k.queue = e :: queue)
    {v : ℕ × Queso.Envelope M} (hv : v ∈ k.voyages) : e.time ≤ v.1 := by
  obtain ⟨x, hx, htime⟩ := scheduled_voyage hv
  exact (soonest hs hq hx).trans_eq htime

/-- so is a pending timer -/
theorem soonest_timer (hs : Sound k) {e : ScheduledEvent} {queue : List ScheduledEvent} (hq : k.queue = e :: queue)
    {t : PendingTimer} (ht : t ∈ k.pending) : e.time ≤ t.fireAt := by
  obtain ⟨x, hx, htime⟩ := scheduled_timer ht
  exact (soonest hs hq hx).trans_eq htime

/-- an agenda up to an instant that lets nothing more happen holds later timers and arrivals only -/
theorem later_voyage (hs : Sound k) {limit : ℕ} (hdue : k.due limit = false) {v : ℕ × Queso.Envelope M}
    (hv : v ∈ k.voyages) : limit < v.1 := by
  obtain ⟨x, hx, htime⟩ := scheduled_voyage hv
  exact (not_due hs hdue x hx).trans_eq htime

theorem later_timer (hs : Sound k) {limit : ℕ} (hdue : k.due limit = false) {t : PendingTimer} (ht : t ∈ k.pending) :
    limit < t.fireAt := by
  obtain ⟨x, hx, htime⟩ := scheduled_timer ht
  exact (not_due hs hdue x hx).trans_eq htime

theorem voyages_schedule (k : Kernel N G M) (e : ScheduledEvent) :
    (↑((schedule e k.queue).filterMap k.voyageOf) : Multiset (ℕ × Queso.Envelope M)) =
      ↑(k.voyageOf e).toList + k.voyages := by
  have hperm := (schedule_perm e k.queue).filterMap k.voyageOf
  rw [Multiset.coe_eq_coe.2 hperm, List.filterMap_cons]
  unfold Kernel.voyages
  cases k.voyageOf e <;> rfl

/-- nothing is on the agenda, or in flight, under an id that was not given out -/
theorem unsent_id (hs : Sound k) : k.inFlight.lookup k.nextMessageId = none ∧
    ∀ e ∈ k.queue, e.kind ≠ .messageArrival k.nextMessageId := by
  obtain ⟨-, htally⟩ := (hs.accounted k.nextMessageId).fresh
  refine ⟨Option.isNone_iff_eq_none.1 (Option.isSome_eq_false_iff.1 (congrArg Tally.inFlight htally)), fun e he hkind => ?_⟩
  have hzero : k.queue.countP (·.kind.arrives k.nextMessageId) = 0 := congrArg Tally.arrivals htally
  exact List.countP_eq_zero.1 hzero e he (by rw [hkind]; simp [EventKind.arrives])

/-- a message that sets out joins the voyages -/
theorem voyages_insert (hs : Sound k) (e : ScheduledEvent) (he : e.kind = .messageArrival k.nextMessageId)
    (envelope : Envelope M) (hqueue : k'.queue = schedule e k.queue)
    (hfly : k'.inFlight = k.inFlight.insert k.nextMessageId envelope) :
    k'.voyages = (e.time, envelope.erase) ::ₘ k.voyages := by
  obtain ⟨-, hnone⟩ := unsent_id hs
  have hold : ∀ x ∈ k.queue, k'.voyageOf x = k.voyageOf x := by
    intro x hx
    have hx' := hnone x hx
    unfold Kernel.voyageOf
    cases hkind : x.kind with
    | messageArrival id =>
      have hid : id ≠ k.nextMessageId := fun h => hx' (by rw [hkind, h])
      dsimp only
      rw [hfly, AList.lookup_insert_ne hid]
    | timer => rfl
    | fault => rfl
  have hnew : k'.voyageOf e = some (e.time, envelope.erase) := by
    unfold Kernel.voyageOf
    rw [he]
    dsimp only
    rw [hfly, AList.lookup_insert]
    rfl
  have hperm := (schedule_perm e k.queue).filterMap k'.voyageOf
  unfold Kernel.voyages
  rw [hqueue, Multiset.coe_eq_coe.2 hperm, List.filterMap_cons, hnew, List.filterMap_congr hold]
  rfl

/-- an arrival takes its message out of the voyages -/
theorem voyages_arrival (hs : Sound k) {e : ScheduledEvent} {queue : List ScheduledEvent} (hq : k.queue = e :: queue)
    {id : MessageId} (hkind : e.kind = .messageArrival id) : ∃ envelope, k.inFlight.lookup id = some envelope ∧
      k.voyages = (e.time, envelope.erase) ::ₘ
        Kernel.voyages
          { k with
            now := e.time
            queue := queue
            dispatched := k.dispatched ++ [e]
            inFlight := k.inFlight.erase id } := by
  obtain ⟨⟨envelope, henv⟩, harrived⟩ := hs.arrives hq hkind
  have hrest : queue.countP (·.kind.arrives id) = 0 := congrArg Tally.arrivals harrived.tally
  refine ⟨envelope, henv, ?_⟩
  have hhead : k.voyageOf e = some (e.time, envelope.erase) := by
    unfold Kernel.voyageOf
    rw [hkind]
    dsimp only
    rw [henv]
    rfl
  have hold : ∀ x ∈ queue, k.voyageOf x = Kernel.voyageOf
      { k with
        now := e.time
        queue := queue
        dispatched := k.dispatched ++ [e]
        inFlight := k.inFlight.erase id } x := by
    intro x hx
    have hx' := List.countP_eq_zero.1 hrest x hx
    unfold Kernel.voyageOf
    cases hk : x.kind with
    | messageArrival id' =>
      have hid : id' ≠ id := fun h => hx' (by rw [hk, h]; simp [EventKind.arrives])
      dsimp only
      rw [AList.lookup_erase_ne hid]
    | timer => rfl
    | fault => rfl
  unfold Kernel.voyages
  rw [hq, List.filterMap_cons, hhead, List.filterMap_congr hold]
  rfl

/-- a timer that is taken leaves the voyages alone -/
theorem voyages_taken {e : ScheduledEvent} {queue : List ScheduledEvent} (hq : k.queue = e :: queue)
    (hkind : ∀ id, e.kind ≠ .messageArrival id) :
    Kernel.voyages { k with now := e.time, queue := queue, dispatched := k.dispatched ++ [e] } = k.voyages := by
  have hhead : k.voyageOf e = none := by
    unfold Kernel.voyageOf
    cases hk : e.kind with
    | messageArrival id => exact absurd hk (hkind id)
    | timer => rfl
    | fault => rfl
  unfold Kernel.voyages
  rw [hq, List.filterMap_cons, hhead]
  rfl

/-! ## Carrying out effects -/

/-- the messages of a callback that find their receiver alive -/
def reaching (f : FaultState) (i : NodeId) (fx : List (Effect M)) : List (Queso.Envelope M) :=
  (sendsOf i fx).filter fun envelope => !f.isCrashed envelope.dst

/-- what carrying out the effects of node `i` adds to the network -/
structure Sped (D : ℕ) (i : NodeId) (k k' : Kernel N G M) (fx : List (Effect M)) : Prop where
  voyages : ∃ fresh : Multiset (ℕ × Queso.Envelope M), k'.voyages = fresh + k.voyages ∧
    fresh.map Prod.snd = ↑(reaching k.faults i fx) ∧ ∀ v ∈ fresh, k.now < v.1 ∧ v.1 ≤ k.now + D
  sent : k'.messageCount = k.messageCount + (sendsOf i fx).length

theorem scheduleTimer_speeds (i : NodeId) (k : Kernel N G M) (after : ℕ) (id : TimerId) :
    Sped D i k (k.scheduleTimer i after id) [.timer after id] where
  voyages := by
    refine ⟨0, ?_, rfl, fun v hv => absurd hv (Multiset.notMem_zero v)⟩
    exact voyages_schedule k ⟨advance k.now (max after 1), k.nextSeq, .timer i id⟩
  sent := by
    unfold Kernel.messageCount Kernel.scheduleTimer Kernel.push
    dsimp only
    rw [List.countP_append]
    rfl

/-- a message to a crashed node is dropped as it is sent -/
theorem send_lost (hn : Harness N G M R) {i dst : NodeId} (hdown : k.faults.isCrashed dst = true) (payload : M) :
    k.send hn i dst payload = (k.sending i dst (hn.size payload)).record
      fun time seq => .drop time seq k.nextMessageId i dst .crashed := by
  have hlost : ((k.sending i dst (hn.size payload)).faults.isCrashed i ||
      (k.sending i dst (hn.size payload)).faults.isCrashed dst) = true := by
    show (k.faults.isCrashed i || k.faults.isCrashed dst) = true
    rw [hdown, Bool.or_true]
  unfold Kernel.send
  exact if_pos hlost

/-- every other message sets out -/
theorem send_sets_out (hn : Harness N G M R) (hp : Punctual D hn.decide) (hcalm : k.Calm) {i dst : NodeId}
    (hlive : k.faults.isCrashed i = false) (hup : k.faults.isCrashed dst = false) (payload : M) :
    ∃ delay envelope, delay ≤ D ∧ envelope.erase = ⟨i, dst, payload⟩ ∧ k.send hn i dst payload =
      { (k.sending i dst (hn.size payload)).push (advance k.now (max (min delay MAX) 1)) (.messageArrival k.nextMessageId)
        with
        inFlight := k.inFlight.insert k.nextMessageId envelope } := by
  obtain ⟨delay, hdelay, hdecide⟩ := hp ⟨⟨k.nextMessageId, i, dst, hn.size payload, k.now⟩, payload⟩ ⟨k.now, k.leader⟩
  refine ⟨delay, ⟨⟨k.nextMessageId, i, dst, hn.size payload, k.now⟩, payload⟩, hdelay, rfl, ?_⟩
  have hkept : ¬ ((k.sending i dst (hn.size payload)).faults.isCrashed i ||
      (k.sending i dst (hn.size payload)).faults.isCrashed dst) = true := by
    show ¬ (k.faults.isCrashed i || k.faults.isCrashed dst) = true
    rw [hlive, hup]
    decide
  have hjoined : ¬ (k.sending i dst (hn.size payload)).faults.isPartitioned i dst = true := by
    show ¬ k.faults.isPartitioned i dst = true
    rw [hcalm.joined]
    decide
  unfold Kernel.send
  refine (if_neg hkept).trans ((if_neg hjoined).trans ?_)
  split
  · rename_i _ delay' hd
    obtain rfl : delay' = delay := Decision.deliver.inj (hd.symm.trans hdecide)
    have hquick : (k.sending i dst (hn.size payload)).faults.slowMultiplier i dst = 1 := hcalm.multiplier i dst
    -- a slow link would multiply the delay
    have hfar : ∀ m, m = 1 →
        { (k.sending i dst (hn.size payload)).push (advance k.now (max (min (delay' * m) MAX) 1))
            (.messageArrival k.nextMessageId) with
          inFlight := k.inFlight.insert k.nextMessageId ⟨⟨k.nextMessageId, i, dst, hn.size payload, k.now⟩, payload⟩ } =
        { (k.sending i dst (hn.size payload)).push (advance k.now (max (min delay' MAX) 1))
            (.messageArrival k.nextMessageId) with
          inFlight := k.inFlight.insert k.nextMessageId ⟨⟨k.nextMessageId, i, dst, hn.size payload, k.now⟩, payload⟩ } := by
      rintro m rfl
      rw [Nat.mul_one]
    exact hfar _ hquick
  · rename_i hd
    cases hd.symm.trans hdecide

theorem send_speeds (hn : Harness N G M R) (hp : Punctual D hn.decide) (hD : 1 ≤ D) (hs : Sound k) (hcalm : k.Calm)
    (hlt : k.now < MAX) {i : NodeId} (hlive : k.faults.isCrashed i = false) (dst : NodeId) (payload : M) :
    Sped D i k (k.send hn i dst payload) [.send dst payload] := by
  cases hup : k.faults.isCrashed dst with
  | true =>
    rw [send_lost hn hup]
    refine ⟨⟨0, (zero_add _).symm, ?_, fun v hv => absurd hv (Multiset.notMem_zero v)⟩, ?_⟩
    · have hnone : reaching k.faults i [.send dst payload] = [] := by
        unfold reaching sendsOf
        simp [hup]
      rw [hnone]
      rfl
    · unfold Kernel.messageCount Kernel.sending Kernel.record
      dsimp only
      rw [List.append_assoc, List.countP_append]
      rfl
  | false =>
    obtain ⟨delay, envelope, hdelay, herase, hsend⟩ := send_sets_out hn hp hcalm hlive hup payload
    rw [hsend]
    refine ⟨⟨{(advance k.now (max (min delay MAX) 1), ⟨i, dst, payload⟩)}, ?_, ?_, fun v hv => ?_⟩, ?_⟩
    · rw [← herase]
      exact voyages_insert hs ⟨advance k.now (max (min delay MAX) 1), k.nextSeq + 1, .messageArrival k.nextMessageId⟩ rfl
        envelope rfl rfl
    · have hone : reaching k.faults i [.send dst payload] = [⟨i, dst, payload⟩] := by
        unfold reaching sendsOf
        simp [hup]
      rw [hone]
      rfl
    · rw [Multiset.mem_singleton.1 hv]
      refine ⟨lt_advance hlt (lt_max_of_lt_right Nat.one_pos), ?_⟩
      show min (k.now + _) MAX ≤ k.now + D
      omega
    · unfold Kernel.messageCount Kernel.sending Kernel.push Kernel.record
      dsimp only
      rw [List.countP_append]
      rfl

theorem Sped.cons {i : NodeId} {k₁ : Kernel N G M} {f : Effect M} {fx : List (Effect M)} (h : Sped D i k k₁ [f])
    (hfaults : k₁.faults = k.faults) (hnow : k₁.now = k.now) (h' : Sped D i k₁ k' fx) : Sped D i k k' (f :: fx) where
  voyages := by
    obtain ⟨fresh, hv, hmap, htimes⟩ := h.voyages
    obtain ⟨fresh', hv', hmap', htimes'⟩ := h'.voyages
    have hsplit : reaching k.faults i (f :: fx) = reaching k.faults i [f] ++ reaching k.faults i fx := by
      unfold reaching sendsOf
      rw [← List.filter_append, ← List.filterMap_append]
      rfl
    refine ⟨fresh' + fresh, by rw [hv', hv, add_assoc], ?_, fun v hmem => ?_⟩
    · rw [hsplit, Multiset.map_add, hmap, hmap', hfaults, ← Multiset.coe_add, add_comm]
    · rcases Multiset.mem_add.1 hmem with hmem | hmem
      · rw [← hnow]
        exact htimes' v hmem
      · exact htimes v hmem
  sent := by
    have hsplit : sendsOf i (f :: fx) = sendsOf i [f] ++ sendsOf i fx := by
      unfold sendsOf
      rw [← List.filterMap_append]
      rfl
    rw [h'.sent, h.sent, hsplit, List.length_append, add_assoc]

theorem effects_speed (hn : Harness N G M R) (hp : Punctual D hn.decide) (hD : 1 ≤ D) {i : NodeId}
    (fx : List (Effect M)) (hs : Sound k) (hcalm : k.Calm) (hlt : k.now < MAX) (hlive : k.faults.isCrashed i = false) :
    Sped D i k (fx.foldl (Kernel.effect hn i) k) fx := by
  induction fx generalizing k with
  | nil =>
    refine ⟨⟨0, (zero_add _).symm, ?_, fun v hv => absurd hv (Multiset.notMem_zero v)⟩, rfl⟩
    rfl
  | cons f fx ih =>
    have hone : Sped D i k (k.effect hn i f) [f] := by
      cases f with
      | send dst payload => exact send_speeds hn hp hD hs hcalm hlt hlive dst payload
      | timer after id => exact scheduleTimer_speeds i k after id
    have hcarry : Carried k (k.effect hn i f) := effects_carry hn i [f] k
    have hcalm' : (k.effect hn i f).Calm := ⟨by rw [hcarry.faults, hcalm.whole], by rw [hcarry.faults, hcalm.prompt]⟩
    have hrest := ih (effect_sound hs hn i f) hcalm' (by rw [hcarry.now]; exact hlt) (by rw [hcarry.faults]; exact hlive)
    exact hone.cons hcarry.faults hcarry.now hrest

/-! ## One turn of the event loop -/

/-- no fault is on the agenda -/
def Kernel.Unplanned (k : Kernel N G M) : Prop := ∀ e ∈ k.queue, ∀ cmd, e.kind ≠ .fault cmd

/-- carrying out effects schedules no fault -/
theorem effects_unplanned (hn : Harness N G M R) (i : NodeId) (fx : List (Effect M)) (h : k.Unplanned) :
    (fx.foldl (Kernel.effect hn i) k).Unplanned := by
  induction fx generalizing k with
  | nil => exact h
  | cons f fx ih =>
    apply ih
    have hpush : ∀ {time seq : ℕ} {kind : EventKind}, (∀ cmd, kind ≠ .fault cmd) →
        ∀ e ∈ schedule ⟨time, seq, kind⟩ k.queue, ∀ cmd, e.kind ≠ .fault cmd := by
      intro time seq kind hkind e he cmd
      rcases mem_schedule.1 he with rfl | he
      · exact hkind cmd
      · exact h e he cmd
    cases f with
    | timer after id => exact hpush fun cmd hc => by cases hc
    | send dst payload =>
      unfold Kernel.effect Kernel.send
      dsimp only
      split_ifs
      · exact h
      · exact h
      · split
        · exact hpush fun cmd hc => by cases hc
        · exact h

/-- at time `time` node `i`'s callback returned `r` and its effects were carried out; these timers and voyages were left -/
structure Acted (D : ℕ) (k k' : Kernel N G M) (time : ℕ) (i : NodeId) (r : N × G × List (Effect M))
    (timers : Multiset PendingTimer) (voyages : Multiset (ℕ × Queso.Envelope M)) : Prop where
  now : k'.now = time
  nodes : k'.nodes = Function.update k.nodes i (some r.1)
  faults : k'.faults = k.faults
  halted : k'.halted = none
  pending : k'.pending = timers + ↑((timersOf i time r.2.2).map capped)
  voyages : ∃ fresh : Multiset (ℕ × Queso.Envelope M), k'.voyages = fresh + voyages ∧
    fresh.map Prod.snd = ↑(reaching k.faults i r.2.2) ∧ ∀ v ∈ fresh, time < v.1 ∧ v.1 ≤ time + D
  sent : k'.messageCount = k.messageCount + (sendsOf i r.2.2).length

/-- at time `time` an event found nobody there -/
structure Missed (k k' : Kernel N G M) (time : ℕ) (timers : Multiset PendingTimer)
    (voyages : Multiset (ℕ × Queso.Envelope M)) : Prop where
  now : k'.now = time
  nodes : k'.nodes = k.nodes
  faults : k'.faults = k.faults
  halted : k'.halted = none
  pending : k'.pending = timers
  voyages : k'.voyages = voyages
  sent : k'.messageCount = k.messageCount

/-- all that a turn at time `time` does on a punctual network -/
inductive Turn (D : ℕ) (hn : Harness N G M R) (k k' : Kernel N G M) (time : ℕ) : Prop where
  | fired {node : NodeId} {id : TimerId} {timers : Multiset PendingTimer} {nd : N} {rng : R} {r : N × G × List (Effect M)}
      (hpend : k.pending = ⟨node, id, time⟩ ::ₘ timers) (hlive : k.faults.isCrashed node = false)
      (hnd : k.nodes node = some nd) (hr : hn.behaviour.onTimer ⟨node, time, rng⟩ id nd k.shared = .ok r)
      (h : Acted D k k' time node r timers k.voyages)
  | arrived {envelope : Queso.Envelope M} {voyages : Multiset (ℕ × Queso.Envelope M)} {nd : N} {rng : R}
      {r : N × G × List (Effect M)} (hfly : k.voyages = (time, envelope) ::ₘ voyages)
      (hlive : k.faults.isCrashed envelope.dst = false) (hnd : k.nodes envelope.dst = some nd)
      (hr : hn.behaviour.onMessage ⟨envelope.dst, time, rng⟩ envelope.src envelope.payload nd k.shared = .ok r)
      (h : Acted D k k' time envelope.dst r k.pending voyages)
  | timerPanics {node : NodeId} {id : TimerId} {timers : Multiset PendingTimer} {nd : N} {rng : R} {e : Panic}
      (hpend : k.pending = ⟨node, id, time⟩ ::ₘ timers) (hlive : k.faults.isCrashed node = false)
      (hnd : k.nodes node = some nd) (hr : hn.behaviour.onTimer ⟨node, time, rng⟩ id nd k.shared = .error e)
  | messagePanics {envelope : Queso.Envelope M} {voyages : Multiset (ℕ × Queso.Envelope M)} {nd : N} {rng : R} {e : Panic}
      (hfly : k.voyages = (time, envelope) ::ₘ voyages) (hlive : k.faults.isCrashed envelope.dst = false)
      (hnd : k.nodes envelope.dst = some nd)
      (hr : hn.behaviour.onMessage ⟨envelope.dst, time, rng⟩ envelope.src envelope.payload nd k.shared = .error e)
  | lapsed {node : NodeId} {id : TimerId} {timers : Multiset PendingTimer} (hpend : k.pending = ⟨node, id, time⟩ ::ₘ timers)
      (hgone : k.faults.isCrashed node = true ∨ k.nodes node = none) (h : Missed k k' time timers k.voyages)
  | lost {envelope : Queso.Envelope M} {voyages : Multiset (ℕ × Queso.Envelope M)}
      (hfly : k.voyages = (time, envelope) ::ₘ voyages)
      (hgone : k.faults.isCrashed envelope.dst = true ∨ k.nodes envelope.dst = none) (h : Missed k k' time k.pending voyages)

/-- a callback returned -/
theorem perform_acts (hn : Harness N G M R) (hp : Punctual D hn.decide) (hD : 1 ≤ D) (hs : Sound k) (hcalm : k.Calm)
    (hlt : k.now < MAX) {i : NodeId} (hlive : k.faults.isCrashed i = false) (hok : k.halted = none)
    (r : N × G × List (Effect M)) : Acted D k (k.perform hn i (.ok r)) k.now i r k.pending k.voyages := by
  obtain ⟨nd, g, fx⟩ := r
  have hs' : Sound { k with nodes := Function.update k.nodes i (some nd), shared := g } :=
    hs.frame (Function.update k.nodes i (some nd)) g k.leader k.halted
  have hfx := effects_emit hn i fx hs'
  have hspeed := effects_speed hn hp hD fx hs' ⟨hcalm.whole, hcalm.prompt⟩ hlt hlive
  exact
    { now := hfx.now
      nodes := hfx.nodes
      faults := hfx.faults
      halted := hfx.halted.trans hok
      pending := hfx.pending
      voyages := hspeed.voyages
      sent := hspeed.sent }

/-- **All that a turn does** where the network is punctual, before the end of the clock. -/
theorem turn_cases (hn : Harness N G M R) (hp : Punctual D hn.decide) (hD : 1 ≤ D) (hs : Sound k) (hcalm : k.Calm)
    (hplan : k.Unplanned) (hok : k.halted = none) {limit : ℕ} (hlimit : limit < MAX) (hdue : k.due limit = true) :
    ∃ time, k.now ≤ time ∧ time ≤ limit ∧ (∀ v ∈ k.voyages, time ≤ v.1) ∧ (∀ t ∈ k.pending, time ≤ t.fireAt) ∧
      (k.dispatch hn).Unplanned ∧ Turn D hn k (k.dispatch hn) time := by
  obtain ⟨e, queue, hq, hle⟩ := due_head hdue
  have hlt := hle.trans_lt hlimit
  have hmem : e ∈ k.queue := by rw [hq]; exact List.mem_cons_self
  refine ⟨e.time, hs.agenda.due e hmem, hle, fun v hv => soonest_voyage hs hq hv, fun t ht => soonest_timer hs hq ht, ?_⟩
  have hplan' : ∀ x ∈ queue, ∀ cmd, x.kind ≠ .fault cmd := fun x hx => hplan x (by rw [hq]; exact List.mem_cons_of_mem _ hx)
  unfold Kernel.dispatch
  rw [hq]
  dsimp only
  unfold Kernel.handle
  cases hkind : e.kind with
  | fault cmd => exact absurd hkind (hplan e hmem cmd)
  | timer node id =>
    have hpend : k.pending = ⟨node, id, e.time⟩ ::ₘ ↑(queue.filterMap pendingOf) := by
      rw [pending_of_cons hq, pendingOf, hkind]
      rfl
    have hvoy : Kernel.voyages { k with now := e.time, queue := queue, dispatched := k.dispatched ++ [e] } = k.voyages :=
      voyages_taken hq fun id h => by rw [hkind] at h; cases h
    have hsound : Sound { k with now := e.time, queue := queue, dispatched := k.dispatched ++ [e] } :=
      hs.taken hq fun id => by rw [hkind]; rfl
    dsimp only [Kernel.dispatchTimer]
    cases hlive : k.faults.isCrashed node with
    | true =>
      rw [if_pos rfl]
      refine ⟨hplan', .lapsed hpend (.inl hlive) ⟨rfl, rfl, rfl, hok, rfl, hvoy, ?_⟩⟩
      unfold Kernel.messageCount Kernel.recordAs
      dsimp only
      rw [List.countP_append]
      rfl
    | false =>
      rw [if_neg Bool.false_ne_true]
      cases hnd : k.nodes node with
      | none => exact ⟨hplan', .lapsed hpend (.inr hnd) ⟨rfl, rfl, rfl, hok, rfl, hvoy, rfl⟩⟩
      | some nd =>
        dsimp only
        have hrec : Sound (Kernel.recordAs { k with now := e.time, queue := queue, dispatched := k.dispatched ++ [e] } e.seq
            fun time seq => .timerFired time seq node id) :=
          hsound.recordAs (fun _ => ⟨rfl, rfl, rfl⟩) rfl hlive
        have hcount : Kernel.messageCount (Kernel.recordAs
            { k with now := e.time, queue := queue, dispatched := k.dispatched ++ [e] } e.seq
            fun time seq => .timerFired time seq node id) = k.messageCount := by
          unfold Kernel.messageCount Kernel.recordAs
          dsimp only
          rw [List.countP_append]
          rfl
        cases hr : hn.behaviour.onTimer ⟨node, e.time, hn.rng e.seq⟩ id nd k.shared with
        | error p => exact ⟨hplan', .timerPanics hpend hlive hnd hr⟩
        | ok r =>
          have hact := perform_acts hn hp hD hrec ⟨hcalm.whole, hcalm.prompt⟩ hlt hlive hok r
          refine ⟨effects_unplanned hn node r.2.2 hplan', .fired hpend hlive hnd hr ?_⟩
          exact
            { now := hact.now
              nodes := hact.nodes
              faults := hact.faults
              halted := hact.halted
              pending := hact.pending
              voyages := by
                obtain ⟨fresh, hv, hrest⟩ := hact.voyages
                exact ⟨fresh, hv.trans (congrArg (fresh + ·) hvoy), hrest⟩
              sent := hact.sent.trans (congrArg (· + (sendsOf node r.2.2).length) hcount) }
  | messageArrival id =>
    obtain ⟨envelope, henv, hfly⟩ := voyages_arrival hs hq hkind
    obtain ⟨-, harrived⟩ := hs.arrives hq hkind
    have hpend : (↑(queue.filterMap pendingOf) : Multiset PendingTimer) = k.pending := by
      rw [pending_of_cons hq, pendingOf, hkind]
      exact (zero_add _).symm
    dsimp only [Kernel.dispatchMessageArrival]
    rw [henv]
    dsimp only
    cases hlive : k.faults.isCrashed envelope.info.dst with
    | true =>
      rw [if_pos rfl]
      refine ⟨hplan', .lost hfly (.inl hlive) ⟨rfl, rfl, rfl, hok, hpend, rfl, ?_⟩⟩
      unfold Kernel.messageCount Kernel.recordAs
      dsimp only
      rw [List.countP_append]
      rfl
    | false =>
      rw [if_neg Bool.false_ne_true, hcalm.joined, if_neg Bool.false_ne_true]
      cases hnd : k.nodes envelope.info.dst with
      | none => exact ⟨hplan', .lost hfly (.inr hnd) ⟨rfl, rfl, rfl, hok, hpend, rfl, rfl⟩⟩
      | some nd =>
        dsimp only
        have hrec : Sound (Kernel.recordAs
            { k with
              now := e.time
              queue := queue
              dispatched := k.dispatched ++ [e]
              inFlight := k.inFlight.erase id } e.seq
            fun time seq => .deliver time seq id envelope.info.src envelope.info.dst) :=
          harrived.delivered ⟨hlive, hcalm.joined _ _⟩
        have hcount : Kernel.messageCount (Kernel.recordAs
            { k with
              now := e.time
              queue := queue
              dispatched := k.dispatched ++ [e]
              inFlight := k.inFlight.erase id } e.seq
            fun time seq => .deliver time seq id envelope.info.src envelope.info.dst) = k.messageCount := by
          unfold Kernel.messageCount Kernel.recordAs
          dsimp only
          rw [List.countP_append]
          rfl
        cases hr : hn.behaviour.onMessage ⟨envelope.info.dst, e.time, hn.rng e.seq⟩ envelope.info.src envelope.payload nd
            k.shared with
        | error p => exact ⟨hplan', .messagePanics hfly hlive hnd hr⟩
        | ok r =>
          have hact := perform_acts hn hp hD hrec ⟨hcalm.whole, hcalm.prompt⟩ hlt hlive hok r
          refine ⟨effects_unplanned hn envelope.info.dst r.2.2 hplan', .arrived hfly hlive hnd hr ?_⟩
          exact
            { now := hact.now
              nodes := hact.nodes
              faults := hact.faults
              halted := hact.halted
              pending := hact.pending.trans (congrArg (· + _) hpend)
              voyages := hact.voyages
              sent := hact.sent.trans (congrArg (· + (sendsOf envelope.info.dst r.2.2).length) hcount) }

section Acted

variable {i : NodeId} {time : ℕ} {r : N × G × List (Effect M)} {timers : Multiset PendingTimer}
  {voyages : Multiset (ℕ × Queso.Envelope M)}

/-- what was in flight and not taken stays in flight -/
theorem Acted.keeps (h : Acted D k k' time i r timers voyages) {v : ℕ × Queso.Envelope M} (hv : v ∈ voyages) :
    v ∈ k'.voyages := by
  obtain ⟨fresh, hvoy, -⟩ := h.voyages
  rw [hvoy]
  exact Multiset.mem_add.2 (.inr hv)

/-- what is in flight was so before, or the callback sent it -/
theorem Acted.voyage_cases (h : Acted D k k' time i r timers voyages) {v : ℕ × Queso.Envelope M} (hv : v ∈ k'.voyages) :
    v ∈ voyages ∨ v.2 ∈ sendsOf i r.2.2 ∧ k.faults.isCrashed v.2.dst = false ∧ time < v.1 ∧ v.1 ≤ time + D := by
  obtain ⟨fresh, hvoy, hmap, htimes⟩ := h.voyages
  rw [hvoy] at hv
  rcases Multiset.mem_add.1 hv with hv | hv
  · have hmem : v.2 ∈ reaching k.faults i r.2.2 := by
      rw [← Multiset.mem_coe, ← hmap]
      exact Multiset.mem_map_of_mem _ hv
    obtain ⟨hsend, hup⟩ := List.mem_filter.1 hmem
    exact .inr ⟨hsend, by simpa using hup, htimes v hv⟩
  · exact .inl hv

/-- what the callback sent to a live node is in flight and arrives in time -/
theorem Acted.reaches (h : Acted D k k' time i r timers voyages) {envelope : Queso.Envelope M}
    (hsend : envelope ∈ sendsOf i r.2.2) (hup : k.faults.isCrashed envelope.dst = false) :
    ∃ t, (t, envelope) ∈ k'.voyages ∧ t ≤ time + D := by
  obtain ⟨fresh, hvoy, hmap, htimes⟩ := h.voyages
  have hmem : envelope ∈ fresh.map Prod.snd := by
    rw [hmap, Multiset.mem_coe]
    exact List.mem_filter.2 ⟨hsend, by simpa using hup⟩
  obtain ⟨v, hv, rfl⟩ := Multiset.mem_map.1 hmem
  refine ⟨v.1, ?_, (htimes v hv).2⟩
  rw [hvoy]
  exact Multiset.mem_add.2 (.inl hv)

theorem mem_capped_timersOf {now : ℕ} {fx : List (Effect M)} {t : PendingTimer}
    (ht : t ∈ ((↑((timersOf i now fx).map capped) : Multiset PendingTimer))) :
    ∃ after id, .timer after id ∈ fx ∧ t = ⟨i, id, min (now + max after 1) MAX⟩ := by
  obtain ⟨x, hx, rfl⟩ := List.mem_map.1 (Multiset.mem_coe.1 ht)
  obtain ⟨f, hf, hof⟩ := List.mem_filterMap.1 hx
  cases f with
  | send => cases hof
  | timer after id =>
    obtain rfl := Option.some.inj hof
    exact ⟨after, id, hf, rfl⟩

end Acted

end Queso.Sim
