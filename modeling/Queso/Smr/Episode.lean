/-
The history of the attempt that a replica has in flight.

The code keeps no record of when an attempt started, when it first sent a request or what the recorder did meanwhile. An
`Episode` does, for one replica: it is kept beside the cluster (`Followed`), from what each step shows of the replica, and
no step reads it. An attempt is told from the one before it by its slot and by the watchdog's generation, which every
catch-up attempt bumps.

`step_replica` is all that a step can do to one replica: nothing but to its queue, or one callback.
-/
import Queso.Smr.Panics

namespace Queso

/-- what names the attempt in flight: its slot and the watchdog's generation -/
def SmrNode.inFlight (nd : SmrNode) : Option (ℕ × ℕ) := nd.currentAttempt.map fun a => (a.slot, nd.watchdogGeneration)

/-- what happened to the attempt in flight at a replica -/
structure Episode where
  startedAt : ℕ
  /-- when it first sent a record request -/
  spokeAt : Option ℕ
  /-- whether the replica's recorder answered a request for its slot since it started or last deferred -/
  answered : Bool
  /-- the hedge timers that were pending when it started and are due before its own delay is over -/
  leftover : List PendingTimer
deriving DecidableEq

namespace ConcreteMsg

variable {V : Type}

def asks (slot : ℕ) : ConcreteMsg V → Bool
  | .request req => req.slot == slot
  | .response _ => false

def answers (slot : ℕ) : ConcreteMsg V → Bool
  | .request _ => false
  | .response resp => resp.slot == slot

end ConcreteMsg

namespace Smr

/-- the timers `id` of replica `i` that are pending -/
def ownTimers (w : Smr) (i : NodeId) (id : TimerId) : List PendingTimer :=
  w.timers.filter fun t => decide (t.node = i ∧ t.id = id)

/-- the timer that a step fires at replica `i` -/
def fired (w : Smr) (i : NodeId) : SmrOp → Option PendingTimer
  | .env (.fire k _) => (w.timers[k]?).filter fun t => decide (t.node = i ∧ t.fireAt ≤ w.now ∧ w.crashed i = false)
  | _ => none

/-- the message that a step delivers to replica `i`, with its sender -/
def delivered (w : Smr) (i : NodeId) : SmrOp → Option (NodeId × SmrMsg)
  | .env (.deliver k _) =>
    ((w.net[k]?).filter fun e => decide (e.dst = i ∧ w.crashed i = false)).map fun e => (e.src, e.payload)
  | _ => none

/-- what replica `i` sent from `w` to `w'` -/
def newSends (w w' : Smr) (i : NodeId) : List SmrMsg :=
  (((sentOf w'.trace).drop (sentOf w.trace).length).filter fun e => decide (e.src = i)).map Envelope.payload

/-- the hedge timer fires at an attempt that defers -/
def defers (w : Smr) (i : NodeId) (op : SmrOp) : Bool :=
  ((fired w i op).any fun t => decide (t.id = .hedge)) &&
    (w.nodes i).any fun nd => nd.currentAttempt.any fun a =>
      a.proposer.decided.isNone && a.proposer.sawFreshProgress nd.localStep

end Smr

open Smr in
/-- the episode of replica `i` after the step `op` from `w` to `w'` -/
def Episode.note (i : NodeId) (op : SmrOp) (w w' : Smr) (e : Episode) : Episode :=
  match w'.nodes i with
  | none => e
  | some nd =>
    match nd.currentAttempt with
    | none => e
    | some a =>
      let spoke := if (newSends w w' i).any (ConcreteMsg.asks a.slot) then some w'.now else none
      if w'.panicked.isSome then e
      else if (w.nodes i).bind SmrNode.inFlight = nd.inFlight then
        { e with
          spokeAt := e.spokeAt <|> spoke
          answered := !defers w i op && (e.answered || (newSends w w' i).any (ConcreteMsg.answers a.slot)) }
      else
        { startedAt := w'.now
          spokeAt := spoke
          answered := false
          leftover := (ownTimers w i .hedge).filter fun t => decide (t.fireAt < w'.now + a.proposer.activationDelay) }

/-- a cluster with the episode of one replica -/
structure Followed where
  world : Smr
  episode : Episode

namespace Followed

def step (i : NodeId) (f : Followed) (op : SmrOp) : Followed :=
  ⟨Smr.step f.world op, f.episode.note i op f.world (Smr.step f.world op)⟩

/-- a cluster with no attempt in flight yet -/
def of (w : Smr) : Followed := ⟨w, ⟨0, none, false, []⟩⟩

/-- the episode does not change the cluster -/
theorem run_world (i : NodeId) (f : Followed) (ops : List SmrOp) : (Runs.run (step i) f ops).world = f.world.run ops := by
  induction ops generalizing f with
  | nil => rfl
  | cons op ops ih => exact ih (f.step i op)

/-- what every step of a run sees, every step of the followed run sees -/
theorem along_world (i : NodeId) {P : Smr → SmrOp → Prop} {f : Followed} {ops : List SmrOp}
    (h : Runs.Along Smr.step P f.world ops) : Runs.Along (step i) (fun f op => P f.world op) f ops := by
  induction ops generalizing f with
  | nil => trivial
  | cons op ops ih => exact ⟨h.1, ih (f := f.step i op) h.2⟩

end Followed

namespace SmrNode

variable {ctx : SmrCtx} {nd nd' : SmrNode} {sh sh' : Shared} {fx : List (Effect SmrMsg)}

theorem withAttempt_inFlight (nd : SmrNode) (a : CurrentAttempt) :
    (nd.withAttempt a).inFlight = some (a.slot, nd.watchdogGeneration) := by
  obtain ⟨b, hb⟩ := withAttempt_drives nd a
  unfold inFlight
  rw [hb]
  rfl

/-- a launched attempt is named by the frontier it starts at; a probe bumps the generation -/
theorem Launches.inFlight (h : Launches ctx nd sh nd' sh' fx) :
    nd'.inFlight = some (nd.durable.nextSlot, nd'.watchdogGeneration) ∧
      (nd'.isCatchingUp = false ∧ nd'.watchdogGeneration = nd.watchdogGeneration ∨
        nd'.isCatchingUp = true ∧ nd'.watchdogGeneration = nd.watchdogGeneration + 1) := by
  cases h with
  | @op o queue leader delay hq hl hd =>
    refine ⟨withAttempt_inFlight _ _, .inl ⟨?_, rfl⟩⟩
    rw [(launch_drives ctx { nd with queue := queue } (.op o.opId) o.command leader delay).isCatchingUp]
    simp
  | @probe delay hd =>
    obtain ⟨b, hb⟩ := launch_drives ctx nd .catchUp (catchUpProbe nd.durable.nextSlot) none delay
    refine ⟨?_, .inr ⟨?_, rfl⟩⟩
    · unfold SmrNode.inFlight armCatchUpWatchdog
      dsimp only
      rw [hb]
      rfl
    · unfold SmrNode.isCatchingUp armCatchUpWatchdog
      dsimp only
      rw [hb]
      simp

/-- a launched probe is another attempt than the one before -/
theorem Launches.inFlight_ne {nd₁ : SmrNode} (h : Launches ctx nd₁ sh nd' sh' fx) (hcu : nd'.isCatchingUp = true)
    (hgen : nd₁.watchdogGeneration = nd.watchdogGeneration) : nd'.inFlight ≠ nd.inFlight := by
  rcases h.inFlight with ⟨hname, ⟨hnot, -⟩ | ⟨-, hbump⟩⟩
  · exact absurd (hnot.symm.trans hcu) (by simp)
  · rw [hname]
    intro heq
    obtain ⟨a, -, heq⟩ := Option.map_eq_some_iff.1 heq.symm
    simp only [Prod.mk.injEq] at heq
    have hsame : nd.watchdogGeneration = nd₁.watchdogGeneration + 1 := heq.2.trans hbump
    omega

/-- an attempt launched at an idle replica, or at another slot than the one before, is another attempt -/
theorem Launches.inFlight_moved {nd₁ : SmrNode} (h : Launches ctx nd₁ sh nd' sh' fx)
    (hslot : ∀ a, nd.currentAttempt = some a → a.slot ≠ nd₁.durable.nextSlot) : nd'.inFlight ≠ nd.inFlight := by
  rw [h.inFlight.1]
  intro heq
  obtain ⟨a, ha, heq⟩ := Option.map_eq_some_iff.1 heq.symm
  simp only [Prod.mk.injEq] at heq
  exact hslot a ha heq.1

theorem Launches.durable (h : Launches ctx nd sh nd' sh' fx) : nd'.durable = nd.durable := by
  cases h with
  | op => rfl
  | probe => rfl

end SmrNode

namespace Smr

variable {w w' : Smr} {op : SmrOp} {i : NodeId}

@[simp] theorem mem_ownTimers {id : TimerId} {t : PendingTimer} :
    t ∈ ownTimers w i id ↔ t ∈ w.timers ∧ t.node = i ∧ t.id = id := by
  simp [ownTimers]

/-- a step that does nothing to replica `i` but to its queue -/
structure Aside (w : Smr) (i : NodeId) (op : SmrOp) (w' : Smr) : Prop where
  node : ∀ nd', w'.nodes i = some nd' → ∃ nd queue, w.nodes i = some nd ∧ nd' = { nd with queue := queue }
  now : w.now ≤ w'.now
  timers : (∀ k, op ≠ .env (.dupTimer k)) → ∀ id, id ≠ .kickoff → (ownTimers w' i id).Sublist (ownTimers w i id)
  silent : newSends w w' i = []

/-- one callback of replica `i` -/
structure Own (w : Smr) (i : NodeId) (op : SmrOp) (x : Stimulus SmrMsg) (rng : NodeId → Draw)
    (left : List PendingTimer) (nd nd' : SmrNode) (fx : List (Effect SmrMsg)) (w' : Smr) : Prop where
  arises : ∃ eop, op = .env eop ∧ World.Arises w eop i x rng left
  callback : World.Callback SmrNode.behaviour w i x rng left nd nd' fx w'
  course : SmrNode.Course ⟨i, w.now, rng⟩ nd w.shared x nd' w'.shared fx

theorem newSends_of {l : List (Envelope SmrMsg)} (h : sentOf w'.trace = sentOf w.trace ++ l) :
    newSends w w' i = (l.filter fun e => decide (e.src = i)).map Envelope.payload := by
  unfold newSends
  rw [h, List.drop_left]

/-- a step after which replica `i` is as before and fewer timers are pending -/
theorem Aside.of_same (hnode : w'.nodes i = w.nodes i) (hnow : w.now ≤ w'.now)
    (htimers : (∀ k, op ≠ .env (.dupTimer k)) → w'.timers.Sublist w.timers) (hsent : sentOf w'.trace = sentOf w.trace) :
    Aside w i op w' where
  node := fun nd' hnd' => ⟨nd', nd'.queue, hnode.symm.trans hnd', rfl⟩
  now := hnow
  timers := fun hdup _ _ => (htimers hdup).filter _
  silent := by
    rw [newSends_of (l := []) (by rw [hsent, List.append_nil])]
    rfl

theorem sendsOf_src {j : NodeId} {fx : List (Effect SmrMsg)} {e : Envelope SmrMsg} (h : e ∈ sendsOf j fx) : e.src = j := by
  obtain ⟨f, -, hf⟩ := List.mem_filterMap.1 h
  cases f with
  | send dst payload => exact (congrArg Envelope.src (Option.some.inj hf)).symm
  | timer d id => exact absurd hf (by simp)

theorem timersOf_node {j : NodeId} {now : ℕ} {fx : List (Effect SmrMsg)} {t : PendingTimer}
    (h : t ∈ timersOf j now fx) : t.node = j := by
  obtain ⟨d, id, -, rfl⟩ := World.mem_timersOf.1 h
  rfl

/-- a callback of another replica -/
theorem Aside.of_callback {j : NodeId} {x : Stimulus SmrMsg} {rng : NodeId → Draw} {left : List PendingTimer}
    {nd nd' : SmrNode} {fx : List (Effect SmrMsg)} (hij : i ≠ j) (hleft : left.Sublist w.timers)
    (h : World.Callback SmrNode.behaviour w j x rng left nd nd' fx w') : Aside w i op w' where
  node := fun nd₁ hnd₁ => by
    rw [h.nodes, Function.update_of_ne hij] at hnd₁
    exact ⟨nd₁, nd₁.queue, hnd₁, rfl⟩
  now := h.now.ge
  timers := fun _ id _ => by
    have hnone : ((timersOf j w.now fx).filter fun t => decide (t.node = i ∧ t.id = id)) = [] := by
      refine List.filter_eq_nil_iff.2 fun t ht => ?_
      have hnode := timersOf_node ht
      simp only [decide_eq_true_eq, not_and]
      exact fun hi => absurd (hi.symm.trans hnode) hij
    unfold ownTimers
    rw [h.timers, List.filter_append, hnone, List.append_nil]
    exact hleft.filter _
  silent := by
    rw [newSends_of h.sent, List.map_eq_nil_iff, List.filter_eq_nil_iff]
    intro e he
    have hsrc := sendsOf_src he
    simp only [decide_eq_true_eq]
    exact fun hi => hij (hi.symm.trans hsrc)

theorem Aside.of_submit {j : NodeId} {c : Command} {nd : SmrNode} (h : Queued w j c nd w') : Aside w i op w' where
  node := fun nd₁ hnd₁ => by
    rw [h.nodes] at hnd₁
    by_cases hij : i = j
    · subst hij
      exact ⟨nd, _, h.node, (by simpa using hnd₁.symm)⟩
    · exact ⟨nd₁, nd₁.queue, by simpa [hij] using hnd₁, rfl⟩
  now := h.now.ge
  timers := fun _ id hid => by
    obtain ⟨kicks, htimers, hkicks⟩ := h.timers
    have hnone : (kicks.filter fun t => decide (t.node = i ∧ t.id = id)) = [] := by
      refine List.filter_eq_nil_iff.2 fun t ht => ?_
      simp only [decide_eq_true_eq, not_and]
      exact fun _ ht' => hid (ht'.symm.trans (hkicks t ht))
    unfold ownTimers
    rw [htimers, List.filter_append, hnone, List.append_nil]
  silent := by
    rw [newSends_of (l := []) (by rw [h.sent, List.append_nil])]
    rfl

/-- what fires at a replica calls it -/
theorem fired_arises {t : PendingTimer} (h : fired w i op = some t) :
    ∃ k rng, op = .env (.fire k rng) ∧
      World.Arises w (.fire k rng : EnvOp (NodeId → Draw)) i (.timer t.id) rng (w.timers.eraseIdx k) := by
  cases op with
  | submit j c => exact absurd h (by simp [fired])
  | env eop =>
    cases eop with
    | fire k rng =>
      unfold fired at h
      obtain ⟨hk, hwhen⟩ := Option.filter_eq_some_iff.1 h
      simp only [decide_eq_true_eq] at hwhen
      obtain ⟨rfl, hdue, hup⟩ := hwhen
      exact ⟨k, rng, rfl, .timer hk hup hdue⟩
    | _ => exact absurd h (by simp [fired])

/-- **All a step can do to one replica** -/
theorem step_replica (w : Smr) (i : NodeId) (op : SmrOp) :
    (Aside w i op (step w op) ∧
      ((step w op).panicked = none → (w.nodes i).isSome = true → fired w i op = none)) ∨
    ∃ x rng left nd nd' fx, Own w i op x rng left nd nd' fx (step w op) := by
  cases hp : w.panicked with
  | some e =>
    have hw := step_stopped hp op
    refine .inl ⟨?_, fun hok => ?_⟩
    · rw [hw]
      exact .of_same rfl le_rfl (fun _ => List.Sublist.refl _) rfl
    · rw [hw] at hok
      exact absurd (hp.symm.trans hok) (by simp)
  | none =>
    cases op with
    | submit j c =>
      refine .inl ⟨?_, fun _ _ => rfl⟩
      cases hok : (step w (.submit j c)).panicked with
      | none =>
        obtain ⟨nd, hq⟩ := submit_queued hok
        exact .of_submit hq
      | some e =>
        have hw : step w (.submit j c) = { w with panicked := some e } := by
          unfold step at hok ⊢
          dsimp only at hok ⊢
          rw [if_neg (by simp [hp])] at hok ⊢
          unfold submit at hok ⊢
          split_ifs at hok ⊢ with hc
          · rw [← hok]
          · cases hn : w.nodes j with
            | none => simp only [hn] at hok ⊢; rw [← hok]
            | some nd =>
              simp only [hn] at hok
              split_ifs at hok
              · exact absurd (hp.symm.trans hok) (by simp)
              · exact absurd (hp.symm.trans hok) (by simp)
        rw [hw]
        exact .of_same rfl le_rfl (fun _ => List.Sublist.refl _) rfl
    | env eop =>
      by_cases hcalled : ∃ x rng left nd, World.Arises w eop i x rng left ∧ w.nodes i = some nd
      · obtain ⟨x, rng, left, nd, harises, hnd⟩ := hcalled
        rcases harises.event (b := SmrNode.behaviour) hp hnd with ⟨e, he⟩ | ⟨nd', fx, hcb⟩
        · refine .inl ⟨.of_same ?_ he.now.ge ?_ he.sent, fun hok => absurd (he.panicked.symm.trans hok) (by simp)⟩
          · exact congrFun he.nodes i
          · intro _
            show (w.env SmrNode.behaviour eop).timers.Sublist w.timers
            rw [he.timers]
            exact harises.left.1
        · exact .inr ⟨x, rng, left, nd, nd', fx, ⟨eop, rfl, harises⟩, hcb, SmrNode.respond_course hcb.outcome⟩
      · refine .inl ⟨?_, fun _ hnode => ?_⟩
        · rcases World.env_event SmrNode.behaviour w eop with hquiet |
            ⟨-, j, x, rng, left, nd, harises, hnd, ⟨e, he⟩ | ⟨nd', fx, hcb⟩⟩
          · refine .of_same (congrFun hquiet.nodes i) hquiet.now (fun hdup => hquiet.sublist fun k hk => hdup k ?_) hquiet.sent
            rw [hk]
          · refine .of_same (congrFun he.nodes i) he.now.ge (fun _ => ?_) he.sent
            show (w.env SmrNode.behaviour eop).timers.Sublist w.timers
            rw [he.timers]
            exact harises.left.1
          · refine .of_callback (fun hij => hcalled ?_) harises.left.1 hcb
            subst hij
            exact ⟨x, rng, left, nd, harises, hnd⟩
        · refine Option.eq_none_iff_forall_ne_some.2 fun t ht => hcalled ?_
          obtain ⟨k, rng, heq, harises⟩ := fired_arises ht
          obtain rfl : eop = _ := SmrOp.env.inj heq
          obtain ⟨nd, hnd⟩ := Option.isSome_iff_exists.1 hnode
          exact ⟨_, _, _, nd, harises, hnd⟩

/-! ## What a step notes -/

theorem Aside.note {e : Episode} (h : Aside w i op w')
    (hfired : w'.panicked = none → (w.nodes i).isSome = true → fired w i op = none) : e.note i op w w' = e := by
  unfold Episode.note
  cases hnd' : w'.nodes i with
  | none => rfl
  | some nd' =>
    dsimp only
    cases ha : nd'.currentAttempt with
    | none => rfl
    | some a =>
      obtain ⟨nd, queue, hnd, rfl⟩ := h.node nd' hnd'
      have hkey : (w.nodes i).bind SmrNode.inFlight = SmrNode.inFlight { nd with queue := queue } := by
        rw [hnd]
        rfl
      dsimp only
      by_cases hp : w'.panicked.isSome = true
      · rw [if_pos hp]
      · have hdefers : defers w i op = false := by
          unfold defers
          rw [hfired (by simpa using hp) (by rw [hnd]; rfl)]
          rfl
        rw [if_neg hp, if_pos hkey, h.silent, hdefers]
        simp

section Own

variable {x : Stimulus SmrMsg} {rng : NodeId → Draw} {left : List PendingTimer} {nd nd' : SmrNode}
  {fx : List (Effect SmrMsg)} {e : Episode}

theorem Own.newSends (h : Own w i op x rng left nd nd' fx w') :
    newSends w w' i = (sendsOf i fx).map Envelope.payload := by
  have hall : ((sendsOf i fx).filter fun e => decide (e.src = i)) = sendsOf i fx :=
    List.filter_eq_self.2 fun e he => by simpa using sendsOf_src he
  rw [newSends_of h.callback.sent, hall]

theorem Own.node (h : Own w i op x rng left nd nd' fx w') : w'.nodes i = some nd' := by
  rw [h.callback.nodes]
  simp

/-- the timer that called the replica, if one did -/
theorem Own.fired (h : Own w i op x rng left nd nd' fx w') :
    (fired w i op = none ∧ ∀ id, x ≠ .timer id) ∨
      ∃ t, fired w i op = some t ∧ x = .timer t.id ∧ t ∈ ownTimers w i t.id ∧ t.fireAt ≤ w.now := by
  obtain ⟨eop, rfl, harises⟩ := h.arises
  cases harises with
  | message hk hup => exact .inl ⟨rfl, by simp⟩
  | @timer k rng t hk hup hdue =>
    refine .inr ⟨t, ?_, rfl, mem_ownTimers.2 ⟨List.mem_of_getElem? hk, rfl, rfl⟩, hdue⟩
    simp [Smr.fired, hk, hdue, hup]
  | restart => exact .inl ⟨rfl, by simp⟩

/-- the message that called the replica, if one did -/
theorem Own.delivered (h : Own w i op x rng left nd nd' fx w') {src : NodeId} {payload : SmrMsg}
    (hx : x = .message src payload) : delivered w i op = some (src, payload) := by
  obtain ⟨eop, rfl, harises⟩ := h.arises
  subst hx
  cases harises with
  | message hk hup => simp [Smr.delivered, hk, hup]

/-- the timers of the replica after a callback: what it leaves, and what it arms -/
theorem Own.ownTimers (h : Own w i op x rng left nd nd' fx w') (id : TimerId) :
    ∃ kept, ownTimers w' i id = kept ++ (timersOf i w.now fx).filter (fun t => decide (t.id = id)) ∧
      kept.Sublist (ownTimers w i id) ∧ (x = .timer id → kept.length + 1 = (ownTimers w i id).length) := by
  obtain ⟨eop, -, harises⟩ := h.arises
  have hnew : ((timersOf i w.now fx).filter fun t => decide (t.node = i ∧ t.id = id)) =
      (timersOf i w.now fx).filter fun t => decide (t.id = id) :=
    List.filter_congr fun t ht => by simp [timersOf_node ht]
  refine ⟨left.filter fun t => decide (t.node = i ∧ t.id = id), ?_, harises.left.1.filter _, fun hx => ?_⟩
  · unfold Smr.ownTimers
    rw [h.callback.timers, List.filter_append, hnew]
  · obtain ⟨gone, hperm, ⟨-, hnot⟩ | ⟨t, rfl, hnode, hxt, -⟩⟩ := harises.left_perm
    · exact absurd hx (hnot id)
    · have hid : t.id = id := by
        rw [hx] at hxt
        exact (Stimulus.timer.inj hxt).symm
      have hlen := (hperm.filter fun t => decide (t.node = i ∧ t.id = id)).length_eq
      unfold Smr.ownTimers
      rw [hlen, List.filter_append, List.length_append]
      simp [hnode, hid, Nat.add_comm]

/-- the attempt in flight is kept -/
theorem Own.note_kept (h : Own w i op x rng left nd nd' fx w') {a : CurrentAttempt} (ha : nd'.currentAttempt = some a)
    (hkey : nd'.inFlight = nd.inFlight) :
    e.note i op w w' =
      { e with
        spokeAt := e.spokeAt <|>
          if ((sendsOf i fx).map Envelope.payload).any (ConcreteMsg.asks a.slot) then some w.now else none
        answered := !defers w i op &&
          (e.answered || ((sendsOf i fx).map Envelope.payload).any (ConcreteMsg.answers a.slot)) } := by
  have hpanic : ¬ w'.panicked.isSome = true := by simp [h.callback.panicked]
  have hsame : (w.nodes i).bind SmrNode.inFlight = nd'.inFlight := by
    rw [h.callback.node, hkey]
    rfl
  unfold Episode.note
  rw [h.node]
  dsimp only
  rw [ha]
  dsimp only
  rw [if_neg hpanic, if_pos hsame, h.newSends, h.callback.now]

/-- another attempt is launched -/
theorem Own.note_launched (h : Own w i op x rng left nd nd' fx w') {a : CurrentAttempt}
    (ha : nd'.currentAttempt = some a) (hkey : nd'.inFlight ≠ nd.inFlight) :
    e.note i op w w' =
      { startedAt := w.now
        spokeAt := if ((sendsOf i fx).map Envelope.payload).any (ConcreteMsg.asks a.slot) then some w.now else none
        answered := false
        leftover := (Smr.ownTimers w i .hedge).filter fun t => decide (t.fireAt < w.now + a.proposer.activationDelay) } := by
  have hpanic : ¬ w'.panicked.isSome = true := by simp [h.callback.panicked]
  have hother : ¬ (w.nodes i).bind SmrNode.inFlight = nd'.inFlight := by
    rw [h.callback.node]
    exact fun heq => hkey heq.symm
  unfold Episode.note
  rw [h.node]
  dsimp only
  rw [ha]
  dsimp only
  rw [if_neg hpanic, if_neg hother, h.newSends, h.callback.now]

end Own

end Smr

end Queso
