/-
The fast path on a punctual network: what one round trip is worth to a slot with a leader, and what the slot costs.

- `fast_path_in_one_round_trip`: each live replica decides the leader's value on the fast path, no later than `2 * D`
  ticks after its own delay is over.
- `messages_exact`: where a round trip is over before the first retry, each replica that activated costs one request to
  each replica and one reply of each live one, and nothing else is sent.

Both are read off the two invariants when the run is over: `Prompt`, and `Frugal`, which keeps the account of messages.
-/
import Queso.Consensus.Prompt

namespace Queso

open Sim

variable {V : Type}

/-! ## What a slot costs -/

section Cost

variable {s : Slot V} {D time : ℕ} {k k' : Kernel (ReplicaNode V) Unit (ConcreteMsg V)} {i : NodeId}
  {nd nd' : ReplicaNode V} {fx : List (Effect (ConcreteMsg V))} {timers : Multiset PendingTimer}
  {voyages : Multiset (ℕ × Envelope (ConcreteMsg V))}

/-- whether a message in flight is a request -/
def asks (v : ℕ × Envelope (ConcreteMsg V)) : Bool :=
  match v.2.payload with
  | .request _ => true
  | .response _ => false

theorem Slot.asker_of_asks {v : ℕ × Envelope (ConcreteMsg V)} (h : asks v = true) : Slot.asker v.2 = v.2.src := by
  obtain ⟨t, src, dst, payload⟩ := v
  cases payload with
  | request => rfl
  | response => cases h

def requests (voyages : Multiset (ℕ × Envelope (ConcreteMsg V))) : ℕ := voyages.countP fun v => asks v = true

theorem requests_cons_request (a : NodeId) (req : RecordRequest V) :
    requests ((time, ⟨a, i, .request req⟩) ::ₘ voyages) = requests voyages + 1 :=
  Multiset.countP_cons_of_pos (p := fun v => asks v = true) _ rfl

theorem requests_cons_response (j : NodeId) (resp : RecordResponse V) :
    requests ((time, ⟨j, i, .response resp⟩) ::ₘ voyages) = requests voyages :=
  Multiset.countP_cons_of_neg (p := fun v => asks v = true) _ Bool.false_ne_true

/-- the replicas that are up -/
def Slot.up (s : Slot V) : Finset NodeId := (Finset.range s.n).filter fun i => s.down i = false

/-- those of them that have begun round 1 -/
def Slot.busy (s : Slot V) (nodes : NodeId → Option (ReplicaNode V)) : Finset NodeId :=
  s.up.filter fun i => (nodes i).any (fun nd => nd.proposer.activated) = true

/-- nobody sends anything twice: each replica that began round 1 costs a request to each replica and the live ones' replies -/
structure Frugal (s : Slot V) (D : ℕ) (k : Kernel (ReplicaNode V) Unit (ConcreteMsg V)) : Prop where
  late : ∀ t ∈ k.pending, ∀ step, t.id = .retry step → min (s.start t.node + RETRY_DELAY_TICKS) MAX ≤ t.fireAt
  first : ∀ v ∈ k.voyages, asks v = true → s.down v.2.src = false ∧ v.1 ≤ s.start v.2.src + D
  cost : k.messageCount + requests k.voyages = (s.n + s.up.card) * (s.busy k.nodes).card

theorem Slot.mem_up : i ∈ s.up ↔ i < s.n ∧ s.down i = false := by
  unfold Slot.up
  rw [Finset.mem_filter, Finset.mem_range]

theorem Slot.up_card (s : Slot V) : s.up.card = ((List.range s.n).filter fun j => !s.down j).length := by
  have hlist : s.up = ((List.range s.n).filter fun j => !s.down j).toFinset := by
    ext j
    rw [Slot.mem_up, List.mem_toFinset, List.mem_filter, List.mem_range, Bool.not_eq_true']
  rw [hlist, List.toFinset_card_of_nodup (List.nodup_range.filter _)]

/-- once every message that was due has arrived, a replica that began round 1 has decided -/
theorem Prompt.settled (h : Prompt s D k) (hmajority : s.n / 2 + 1 ≤ s.up.card) (hnd : k.nodes i = some nd)
    (hup : s.down i = false) (hact : nd.proposer.activated = true)
    (hlate : ∀ v ∈ k.voyages, s.start i + 2 * D < v.1) : nd.proposer.decided = some s.value := by
  cases h.stage i nd hnd hup with
  | idle _ _ ha => rw [ha] at hact; cases hact
  | waiting _ _ ha => rw [ha] at hact; cases hact
  | decided _ hd => exact hd
  | active _ _ _ _ _ _ _ hquorum hdue =>
    have hheard : ∀ j ∈ (List.range s.n).filter fun j => !s.down j, j ∈ nd.proposer.responses.keys := by
      intro j hj
      obtain ⟨hjn, hjup⟩ := List.mem_filter.1 hj
      rcases hdue j (List.mem_range.1 hjn) (by simpa using hjup) with hin | ⟨t, q, hv, hle⟩ | ⟨t, r, hv, hle⟩
      · exact AList.mem_keys.1 hin
      · have hnever : s.start i + 2 * D < t := hlate _ hv
        omega
      · have hnever : s.start i + 2 * D < t := hlate _ hv
        omega
    refine absurd ?_ hquorum
    show nd.proposer.totalReplicas / 2 + 1 ≤ nd.proposer.responses.keys.length
    rw [(h.built i nd hnd).totalReplicas]
    rw [Slot.up_card] at hmajority
    exact hmajority.trans ((List.nodup_range.filter _).subperm hheard).length_le

theorem Slot.busy_same (hnd : k.nodes i = some nd) (hact : nd'.proposer.activated = nd.proposer.activated) :
    s.busy (Function.update k.nodes i (some nd')) = s.busy k.nodes := by
  apply Finset.filter_congr
  intro j _
  by_cases hj : j = i
  · subst hj
    rw [Function.update_self, hnd, Option.any_some, Option.any_some, hact]
  · rw [Function.update_of_ne hj]

theorem Slot.busy_begins (hup : i ∈ s.up) (hnd : k.nodes i = some nd) (hidle : nd.proposer.activated = false)
    (hact : nd'.proposer.activated = true) :
    (s.busy (Function.update k.nodes i (some nd'))).card = (s.busy k.nodes).card + 1 := by
  have hnew : i ∉ s.busy k.nodes := by
    intro hi
    have hany := (Finset.mem_filter.1 hi).2
    rw [hnd, Option.any_some, hidle] at hany
    cases hany
  have hset : s.busy (Function.update k.nodes i (some nd')) = insert i (s.busy k.nodes) := by
    ext j
    unfold Slot.busy
    rw [Finset.mem_insert, Finset.mem_filter, Finset.mem_filter]
    by_cases hj : j = i
    · subst hj
      rw [Function.update_self, Option.any_some]
      exact iff_of_true ⟨hup, hact⟩ (.inl rfl)
    · rw [Function.update_of_ne hj]
      exact ⟨.inr, fun h => h.resolve_left hj⟩
  rw [hset, Finset.card_insert_of_notMem hnew]

/-- what a callback sends, when no request is among it -/
theorem requests_quiet {r : ReplicaNode V × Unit × List (Effect (ConcreteMsg V))}
    (ha : Acted D k k' time i r timers voyages) (hsends : ∀ e ∈ sendsOf i r.2.2, ∀ t, asks (t, e) = false) :
    requests k'.voyages = requests voyages := by
  obtain ⟨fresh, hvoy, hmap, -⟩ := ha.voyages
  unfold requests
  rw [hvoy, Multiset.countP_add, Multiset.countP_eq_zero.2, zero_add]
  intro v hv
  have hmem : v.2 ∈ reaching k.faults i r.2.2 := by
    rw [← Multiset.mem_coe, ← hmap]
    exact Multiset.mem_map_of_mem _ hv
  rw [hsends v.2 (List.mem_filter.1 hmem).1 v.1]
  exact Bool.false_ne_true

/-- and when nothing else is -/
theorem requests_asking {r : ReplicaNode V × Unit × List (Effect (ConcreteMsg V))}
    (ha : Acted D k k' time i r timers voyages) (hsends : ∀ e ∈ sendsOf i r.2.2, ∀ t, asks (t, e) = true) :
    requests k'.voyages = (reaching k.faults i r.2.2).length + requests voyages := by
  obtain ⟨fresh, hvoy, hmap, -⟩ := ha.voyages
  have hall : fresh.countP (fun v => asks v = true) = (reaching k.faults i r.2.2).length := by
    rw [← Multiset.coe_card, ← hmap, Multiset.card_map]
    apply Multiset.countP_eq_card.2
    intro v hv
    have hmem : v.2 ∈ reaching k.faults i r.2.2 := by
      rw [← Multiset.mem_coe, ← hmap]
      exact Multiset.mem_map_of_mem _ hv
    exact hsends v.2 (List.mem_filter.1 hmem).1 v.1
  unfold requests
  rw [hvoy, Multiset.countP_add, hall]

theorem sendsOf_beginStep (p : Proposer V) (draw : NodeId → Draw) : sendsOf i (p.beginStep draw).2 =
    (List.range p.totalReplicas).map fun r => ⟨i, r, .request ⟨p.slot, p.step, p.prepare draw r⟩⟩ := by
  unfold sendsOf Proposer.beginStep Proposer.allRecorders
  rw [List.filterMap_append, List.filterMap_map, ← List.filterMap_eq_map]
  exact List.append_nil _

/-- a callback that sends no request and activates nobody -/
theorem Frugal.quiet (f : Frugal s D k) (hnd : k.nodes i = some nd)
    (ha : Acted D k k' time i (nd', (), fx) timers voyages) (hact : nd'.proposer.activated = nd.proposer.activated)
    (htimers : ∀ t ∈ timers, t ∈ k.pending) (harmed : ∀ d x, .timer d x ∈ fx → ∀ step, x ≠ .retry step)
    (hsub : ∀ v ∈ voyages, v ∈ k.voyages) (hsends : ∀ e ∈ sendsOf i fx, ∀ t, asks (t, e) = false)
    (hcost : (sendsOf i fx).length + requests voyages = requests k.voyages) : Frugal s D k' where
  late := fun t ht step hid => by
    rw [ha.pending] at ht
    rcases Multiset.mem_add.1 ht with hold | hnew
    · exact f.late t (htimers t hold) step hid
    · obtain ⟨d, x, hx, rfl⟩ := mem_capped_timersOf hnew
      exact absurd hid (harmed d x hx step)
  first := fun v hv hask => by
    rcases ha.voyage_cases hv with hold | ⟨hnew, -⟩
    · exact f.first v (hsub v hold) hask
    · have hno : asks v = false := hsends v.2 hnew v.1
      rw [hno] at hask
      cases hask
  cost := by
    have hold := f.cost
    have hsent : k'.messageCount = k.messageCount + (sendsOf i fx).length := ha.sent
    rw [requests_quiet ha hsends, ha.nodes, Slot.busy_same hnd hact, ← hold, hsent]
    omega

/-- a replica that begins round 1 -/
theorem Frugal.begins (f : Frugal s D k) (h : Prompt s D k) (hpend : ∀ t ∈ timers, t ∈ k.pending)
    (hlive : s.down i = false) (hnd : k.nodes i = some nd) (htime : time = s.start i)
    (hidle : nd.proposer.activated = false) {p : Proposer V} (htotal : p.totalReplicas = s.n) {draw : NodeId → Draw}
    (ha : Acted D k k' time i ({ nd with proposer := (p.beginStep draw).1 }, (), (p.beginStep draw).2) timers k.voyages) :
    Frugal s D k' := by
  have hsends : ∀ e ∈ sendsOf i (p.beginStep draw).2, ∀ t, asks (t, e) = true := by
    intro e he t
    obtain ⟨r, -, rfl⟩ := (Proposer.mem_sendsOf_beginStep p draw).1 he
    rfl
  refine ⟨fun t ht step hid => ?_, fun v hv hask => ?_, ?_⟩
  · rw [ha.pending] at ht
    rcases Multiset.mem_add.1 ht with hold | hnew
    · exact f.late t (hpend t hold) step hid
    · obtain ⟨d, x, hx, rfl⟩ := mem_capped_timersOf hnew
      have hd : d = RETRY_DELAY_TICKS := by
        rcases List.mem_append.1 hx with hreq | harm
        · obtain ⟨r, -, hr⟩ := List.mem_map.1 hreq
          cases hr
        · exact (Effect.timer.inj (List.mem_singleton.1 harm)).1
      dsimp only
      omega
  · rcases ha.voyage_cases hv with hold | ⟨hnew, -, -, hle⟩
    · exact f.first v hold hask
    · obtain ⟨r, -, he⟩ := (Proposer.mem_sendsOf_beginStep p draw).1 hnew
      rw [he]
      exact ⟨hlive, by rw [← htime]; exact hle⟩
  · have hold := f.cost
    have hlength : (sendsOf i (p.beginStep draw).2).length = s.n := by
      rw [sendsOf_beginStep, List.length_map, List.length_range, htotal]
    have hreach : (reaching k.faults i (p.beginStep draw).2).length = s.up.card := by
      unfold reaching
      rw [sendsOf_beginStep, List.filter_map, List.length_map, htotal, Slot.up_card]
      congr 1
      apply List.filter_congr
      intro r _
      show (!k.faults.isCrashed r) = !s.down r
      rw [h.down]
    have hsent : k'.messageCount = k.messageCount + (sendsOf i (p.beginStep draw).2).length := ha.sent
    have hbusy : (s.busy k'.nodes).card = (s.busy k.nodes).card + 1 := by
      rw [ha.nodes]
      exact Slot.busy_begins (Slot.mem_up.2 ⟨(h.members i).1 (by rw [hnd]; rfl), hlive⟩) hnd hidle rfl
    rw [requests_asking ha hsends, hreach, hsent, hlength, hbusy, Nat.mul_add_one, ← hold]
    omega

/-- **A turn repeats nothing** where a round trip is over before the first retry. -/
theorem Frugal.turn [LinearOrder V] (f : Frugal s D k) (h : Prompt s D k) (hretry : 2 * D < RETRY_DELAY_TICKS)
    (hmajority : s.n / 2 + 1 ≤ s.up.card) (hlt : time < MAX) (hsoonV : ∀ v ∈ k.voyages, time ≤ v.1)
    (hhap : s.Happens D k k' time) : Frugal s D k' := by
  cases hhap with
  | lapses hpend hgone hm =>
    refine ⟨fun t ht => f.late t ?_, fun v hv => f.first v (by rw [← hm.voyages]; exact hv), ?_⟩
    · rw [hm.pending] at ht
      rw [hpend]
      exact Multiset.mem_cons_of_mem ht
    · rw [hm.sent, hm.voyages, hm.nodes]
      exact f.cost
  | serves hfly hlive hnd ha =>
    refine f.quiet hnd ha rfl (fun t ht => ht) (fun d x hx => absurd hx (by simp))
      (fun v hv => by rw [hfly]; exact Multiset.mem_cons_of_mem hv) (fun e he t => ?_) ?_
    · obtain rfl := List.mem_singleton.1 he
      rfl
    · rw [hfly, requests_cons_request, add_comm]
      rfl
  | answers hfly hlive hnd hr ha =>
    rename_i j i resp voyages nd draw p'
    have hmem : (time, ⟨j, i, .response resp⟩) ∈ k.voyages := by rw [hfly]; exact Multiset.mem_cons_self _ _
    obtain ⟨p₁, hp₁, -, hact, -⟩ := h.answer hmem hlive hnd draw
    obtain rfl : p' = p₁ := (Prod.mk.inj (Except.ok.inj (hr.symm.trans hp₁))).1
    refine f.quiet hnd ha (hact.trans (h.asked _ hmem nd hnd).symm) (fun t ht => ht) (fun d x hx => absurd hx (by simp))
      (fun v hv => by rw [hfly]; exact Multiset.mem_cons_of_mem hv) (fun e he => absurd he (by simp [sendsOf])) ?_
    rw [hfly, requests_cons_response]
    exact Nat.zero_add _
  | fires hpend hlive hnd hr ha =>
    rename_i i id timers nd draw p' fx
    have hb := h.built i nd hnd
    have hstage := h.stage i nd hnd hlive
    have htimers : ∀ t ∈ timers, t ∈ k.pending := fun t ht => by rw [hpend]; exact Multiset.mem_cons_of_mem ht
    cases Proposer.onTimer_moves hr with
    | quiet hfx hh =>
      rw [hb.selfId] at hfx
      refine f.quiet hnd ha rfl htimers (fun d x hx step => ?_) (fun v hv => hv) (fun e he => ?_) ?_
      · rw [(hh d x hx).1]
        exact TimerId.noConfusion
      · rw [hfx] at he
        exact absurd he List.not_mem_nil
      · rw [hfx]
        exact Nat.zero_add _
    | restarts hd hzero =>
      obtain ⟨htime, -, -, hidle⟩ := hstage.kickoff hpend
      have hstart : time = s.start i := by
        rw [htime, Slot.start, ← hb.delay, hzero]
      exact f.begins (p := nd.proposer.movedTo FIRST_ROUND_STEP nd.proposer.proposal) h htimers hlive hnd hstart hidle
        hb.totalReplicas ha
    | rewinds hd hdelay =>
      refine f.quiet hnd ha rfl htimers (fun d x hx step => ?_) (fun v hv => hv) (fun e he => absurd he (by simp [sendsOf]))
        (Nat.zero_add _)
      rw [(Effect.timer.inj (List.mem_singleton.1 hx)).2]
      exact TimerId.noConfusion
    | activates hd hfresh =>
      obtain ⟨htime, -, -, -, hidle⟩ := hstage.hedge hlt hpend
      exact f.begins h htimers hlive hnd htime hidle hb.totalReplicas ha
    | resends hd hact =>
      -- a round trip after the start the replica has decided
      have hlate := f.late ⟨i, .retry nd.proposer.step, time⟩ (by rw [hpend]; exact Multiset.mem_cons_self _ _) _ rfl
      have hdecided := h.settled hmajority hnd hlive hact fun v hv => by
        have hsoon := hsoonV v hv
        dsimp only at hlate
        omega
      rw [hd] at hdecided
      cases hdecided

end Cost

/-! ## Before the run -/

section Before

variable {s : Slot V} {D : ℕ} {c : ConcreteCluster V}

/-- a cluster that nobody has kicked off -/
structure ConcreteCluster.Ready (c : ConcreteCluster V) (s : Slot V) : Prop where
  sound : Sim.Sound c.kernel
  calm : c.kernel.Calm
  ok : c.kernel.halted = none
  now : c.kernel.now = 0
  queue : c.kernel.queue = []
  sent : c.kernel.messageCount = 0
  members : ∀ i, (c.kernel.nodes i).isSome = true ↔ i < s.n
  down : ∀ i, c.kernel.faults.isCrashed i = s.down i
  built : ∀ i nd, c.kernel.nodes i = some nd → s.Built i nd.proposer
  fresh : ∀ i nd, c.kernel.nodes i = some nd → nd.recorder = .new ∧ nd.localStep = 0 ∧ nd.proposer.step = 0 ∧
    nd.proposer.decided = none ∧ nd.proposer.activated = false
  nodup : c.live.Nodup
  live : ∀ i, i ∈ c.live ↔ i < s.n ∧ s.down i = false

/-- the slot that a cluster of replicas `0` to `n - 1` starts out with -/
def Slot.ofValues (initialValues : Concrete.ByReplica V) (leader : NodeId) (value : V)
    (activationDelays : Concrete.ByReplica ℕ) (crashed : List NodeId) : Slot V where
  n := initialValues.keys.length
  leader := leader
  value := value
  delay := fun i => (activationDelays.lookup i).getD 0
  down := fun i => decide (i ∈ crashed)

theorem ready_new (initialValues : Concrete.ByReplica V) (leader : NodeId) (value : V)
    (activationDelays : Concrete.ByReplica ℕ) (hids : ∀ i, i ∈ initialValues ↔ i < initialValues.keys.length)
    (hvalue : initialValues.lookup leader = some value) :
    (ConcreteCluster.newWithDelays initialValues (some leader) activationDelays).Ready
      (.ofValues initialValues leader value activationDelays []) := by
  have hnew : ∀ i nd, (ConcreteCluster.newWithDelays initialValues (some leader) activationDelays).kernel.nodes i = some nd →
      ∃ v, initialValues.lookup i = some v ∧ nd = ReplicaNode.new initialValues.keys.length i
        ⟨v, some leader, some ((activationDelays.lookup i).getD 0)⟩ := by
    intro i nd hnd
    obtain ⟨cfg, hcfg, rfl⟩ := Option.map_eq_some_iff.1 hnd
    obtain ⟨v, hv, rfl⟩ := Option.map_eq_some_iff.1 hcfg
    exact ⟨v, hv, rfl⟩
  refine
    { sound := (setLeader_sound (sound_new ()) (some leader)).frame _ () _ none
      calm := ⟨rfl, rfl⟩
      ok := rfl
      now := rfl
      queue := rfl
      sent := rfl
      members := fun i => ?_
      down := fun i => by simp [Slot.ofValues, ConcreteCluster.newWithDelays, Kernel.setLeader, Kernel.record,
        Kernel.new, FaultState.isCrashed, FaultState.default]
      built := fun i nd hnd => ?_
      fresh := fun i nd hnd => ?_
      nodup := (List.perm_insertionSort _ _).nodup_iff.2 initialValues.nodupKeys
      live := fun i => ?_ }
  · show (((initialValues.lookup i).map _).map _).isSome = true ↔ _
    rw [Option.isSome_map, Option.isSome_map, AList.lookup_isSome]
    exact hids i
  · obtain ⟨v, hv, rfl⟩ := hnew i nd hnd
    refine ⟨rfl, rfl, rfl, rfl, rfl, fun hi => ?_, Proposer.stocked_idle rfl⟩
    rw [show i = leader from hi, hvalue] at hv
    exact (Option.some.inj hv).symm
  · obtain ⟨v, -, rfl⟩ := hnew i nd hnd
    exact ⟨rfl, rfl, rfl, rfl, rfl⟩
  · show i ∈ initialValues.keys.insertionSort (· ≤ ·) ↔ _
    rw [List.mem_insertionSort, ← AList.mem_keys, hids]
    simp [Slot.ofValues]

/-- one replica more is down -/
def Slot.crash (s : Slot V) (id : NodeId) : Slot V := { s with down := fun i => s.down i || decide (i = id) }

theorem Slot.crash_ofValues (initialValues : Concrete.ByReplica V) (leader : NodeId) (value : V)
    (activationDelays : Concrete.ByReplica ℕ) (crashed : List NodeId) (id : NodeId) :
    (ofValues initialValues leader value activationDelays crashed).crash id =
      ofValues initialValues leader value activationDelays (crashed ++ [id]) := by
  have hdown : (fun i => decide (i ∈ crashed) || decide (i = id)) = fun i => decide (i ∈ crashed ++ [id]) := by
    funext i
    simp
  exact congrArg (Slot.mk _ _ _ _) hdown

/-- a crash before the slot -/
theorem ConcreteCluster.Ready.crash [LinearOrder V] (h : c.Ready s) (ch : ConcreteCluster.Chance V) (id : NodeId) :
    (c.crash ch id).Ready (s.crash id) where
  sound := applyFaultCommand_sound h.sound ch.harness (.crash id)
  calm := ⟨h.calm.whole, h.calm.prompt⟩
  ok := h.ok
  now := h.now
  queue := h.queue
  sent := by
    have hold : c.kernel.trace.countP _ = 0 := h.sent
    show (c.kernel.trace ++ _).countP _ = 0
    rw [List.countP_append, hold]
    rfl
  members := h.members
  down := fun i => by
    have hold : decide (i ∈ c.kernel.faults.crashed) = s.down i := h.down i
    show decide (i ∈ insert id c.kernel.faults.crashed) = (s.down i || decide (i = id))
    rw [← hold]
    simp [Finset.mem_insert, Bool.or_comm]
  built := fun i nd hnd => by
    have hb := h.built i nd hnd
    exact ⟨hb.selfId, hb.slot, hb.totalReplicas, hb.leader, hb.delay, hb.value, hb.stocked⟩
  fresh := h.fresh
  nodup := h.nodup.erase id
  live := fun i => by
    show i ∈ c.live.erase id ↔ _
    rw [h.nodup.mem_erase_iff, h.live]
    show _ ↔ i < s.n ∧ (s.down i || decide (i = id)) = false
    simp
    tauto

theorem ready_crashed [LinearOrder V] (initialValues : Concrete.ByReplica V) (leader : NodeId) (value : V)
    (activationDelays : Concrete.ByReplica ℕ) (hids : ∀ i, i ∈ initialValues ↔ i < initialValues.keys.length)
    (hvalue : initialValues.lookup leader = some value) (ch : ConcreteCluster.Chance V) (crashed : List NodeId) :
    (crashed.foldl (ConcreteCluster.crash ch)
      (ConcreteCluster.newWithDelays initialValues (some leader) activationDelays)).Ready
        (.ofValues initialValues leader value activationDelays crashed) := by
  induction crashed using List.reverseRecOn with
  | nil => exact ready_new initialValues leader value activationDelays hids hvalue
  | append_singleton crashed id ih =>
    rw [List.foldl_append, ← Slot.crash_ofValues]
    exact ih.crash ch id

/-- what the driver's kickoffs leave alone, and what they schedule -/
structure KickedOff (k k' : Kernel (ReplicaNode V) Unit (ConcreteMsg V)) (ids : List NodeId) : Prop where
  sound : Sim.Sound k'
  nodes : k'.nodes = k.nodes
  faults : k'.faults = k.faults
  ok : k'.halted = k.halted
  now : k'.now = k.now
  unplanned : k'.Unplanned
  voyages : k'.voyages = k.voyages
  sent : k'.messageCount = k.messageCount
  pending : k'.pending = k.pending + ↑(ids.map fun i => capped ⟨i, .kickoff, k.now + 1⟩)

theorem kickoffs (ids : List NodeId) {k : Kernel (ReplicaNode V) Unit (ConcreteMsg V)} (hs : Sim.Sound k)
    (hplan : k.Unplanned) : KickedOff k (ids.foldl (fun k id => k.scheduleTimer id 0 .kickoff) k) ids := by
  induction ids generalizing k with
  | nil => exact ⟨hs, rfl, rfl, rfl, rfl, hplan, rfl, rfl, (add_zero _).symm⟩
  | cons i ids ih =>
    have hone := scheduleTimer_emits i k 0 .kickoff
    have hplan' : (k.scheduleTimer i 0 .kickoff).Unplanned := by
      intro e he cmd
      rcases Agenda.mem_schedule.1 he with rfl | he
      · exact fun hc => by cases hc
      · exact hplan e he cmd
    have hrest := ih (scheduleTimer_sound hs i 0 .kickoff) hplan'
    exact
      { sound := hrest.sound
        nodes := hrest.nodes
        faults := hrest.faults
        ok := hrest.ok
        now := hrest.now
        unplanned := hrest.unplanned
        voyages := hrest.voyages.trans (voyages_schedule k ⟨advance k.now 1, k.nextSeq, .timer i .kickoff⟩)
        sent := hrest.sent.trans (scheduleTimer_speeds (D := 0) i k 0 .kickoff).sent
        pending := by
          rw [List.foldl_cons, hrest.pending, hone.pending, hone.now, add_assoc]
          rfl }

/-- each live replica is kicked off once -/
theorem starters_kickoffs {ids : List NodeId} (hnodup : ids.Nodup) {i : NodeId} (hi : i ∈ ids) :
    Slot.starters i ↑(ids.map fun j => (⟨j, .kickoff, 1⟩ : PendingTimer)) = {⟨i, .kickoff, 1⟩} := by
  have hself : ids.filter (fun j => decide (j = i)) = [i] := by
    rw [List.filter_eq, List.count_eq_one_of_mem hnodup hi]
    rfl
  have hsame : ids.filter ((fun t : PendingTimer => decide (t.node = i ∧ (t.id = .kickoff ∨ t.id = .hedge))) ∘ fun j =>
      ⟨j, .kickoff, 1⟩) = ids.filter (fun j => decide (j = i)) := by
    apply List.filter_congr
    intro j _
    simp
  unfold Slot.starters
  rw [Multiset.filter_coe, List.filter_map, hsame, hself]
  rfl

/-- the kickoffs are all there is -/
theorem ConcreteCluster.Ready.kicked (h : c.Ready s) : KickedOff c.kernel c.kicked c.live ∧ c.kicked.voyages = 0 ∧
    c.kicked.pending = ↑(c.live.map fun i => (⟨i, .kickoff, 1⟩ : PendingTimer)) := by
  have hkick : KickedOff c.kernel c.kicked c.live :=
    kickoffs c.live h.sound fun e he => absurd he (by rw [h.queue]; exact List.not_mem_nil)
  refine ⟨hkick, ?_, ?_⟩
  · rw [hkick.voyages]
    unfold Kernel.voyages
    rw [h.queue]
    rfl
  · have hnone : c.kernel.pending = 0 := by
      unfold Kernel.pending
      rw [h.queue]
      rfl
    rw [hkick.pending, hnone, h.now, zero_add]
    rfl

/-- **The kickoffs establish the invariant.** -/
theorem ConcreteCluster.Ready.prompt (h : c.Ready s) (ht : s.Timely D) : Prompt s D c.kicked := by
  obtain ⟨hkick, hvoy, hpend⟩ := h.kicked
  have hflying : ∀ v, v ∉ c.kicked.voyages := fun v hv => by
    rw [hvoy] at hv
    exact Multiset.notMem_zero v hv
  have hleader : (⟨s.leader, .kickoff, 1⟩ : PendingTimer) ∈ c.kicked.pending := by
    rw [hpend, Multiset.mem_coe]
    exact List.mem_map_of_mem ((h.live s.leader).2 ⟨ht.known, ht.up⟩)
  exact
    { sound := hkick.sound
      calm := ⟨by rw [hkick.faults, h.calm.whole], by rw [hkick.faults, h.calm.prompt]⟩
      unplanned := hkick.unplanned
      ok := hkick.ok.trans h.ok
      down := fun i => by rw [hkick.faults]; exact h.down i
      members := fun i => by rw [hkick.nodes]; exact h.members i
      registers := fun i nd hnd => by
        rw [hkick.nodes] at hnd
        obtain ⟨hnew, hlocal, -⟩ := h.fresh i nd hnd
        exact ⟨by rw [hlocal]; exact Nat.zero_le _, .inl hnew⟩
      built := fun i nd hnd => by
        rw [hkick.nodes] at hnd
        exact h.built i nd hnd
      stage := fun i nd hnd hup => by
        rw [hkick.nodes] at hnd
        have hmem : i ∈ c.live := (h.live i).2 ⟨(h.members i).1 (by rw [hnd]; rfl), hup⟩
        obtain ⟨-, -, hstep, hd, hact⟩ := h.fresh i nd hnd
        refine .idle hstep hd hact ?_
        rw [hpend]
        exact starters_kickoffs h.nodup hmem
      lawful := fun v hv => absurd hv (hflying v)
      ends := fun v hv => absurd hv (hflying v)
      asked := fun v hv => absurd hv (hflying v)
      heard := fun j nd _ _ => .inr (.inl hleader) }

theorem ConcreteCluster.Ready.frugal (h : c.Ready s) : Frugal s D c.kicked := by
  obtain ⟨hkick, hvoy, hpend⟩ := h.kicked
  refine ⟨fun t ht step hid => ?_, fun v hv => ?_, ?_⟩
  · rw [hpend, Multiset.mem_coe] at ht
    obtain ⟨i, -, rfl⟩ := List.mem_map.1 ht
    cases hid
  · rw [hvoy] at hv
    exact absurd hv (Multiset.notMem_zero v)
  · have hidle : s.busy c.kicked.nodes = ∅ := by
      apply Finset.filter_eq_empty_iff.2
      intro i hi hact
      obtain ⟨nd, hnd⟩ := Option.isSome_iff_exists.1 ((h.members i).2 (Slot.mem_up.1 hi).1)
      obtain ⟨-, -, -, -, hno⟩ := h.fresh i nd hnd
      rw [hkick.nodes, hnd, Option.any_some, hno] at hact
      cases hact
    rw [hvoy, hkick.sent, h.sent, hidle]
    rfl

end Before

/-! ## The whole slot -/

section Run

variable {s : Slot V} {D limit : ℕ} {k : Kernel (ReplicaNode V) Unit (ConcreteMsg V)} {i : NodeId}
  {nd : ReplicaNode V}

/-- **A slot returns, and the invariants hold** when it does. -/
theorem ConcreteCluster.Ready.runSlot [LinearOrder V] {c : ConcreteCluster V} {ch : ConcreteCluster.Chance V}
    (h : c.Ready s) (ht : s.Timely D) (hp : Punctual D ch.decide) (hlt : limit < MAX) :
    (∃ fuel, (c.runSlot ch fuel limit).isSome = true) ∧ ∀ fuel c', c.runSlot ch fuel limit = some c' →
      Prompt s D c'.kernel ∧ c'.kernel.now ≤ limit ∧ c'.kernel.due limit = false ∧
        (2 * D < RETRY_DELAY_TICKS → s.n / 2 + 1 ≤ s.up.card → Frugal s D c'.kernel) := by
  have hnow : c.kicked.now = 0 := h.kicked.1.now.trans h.now
  have hlimit : advance c.kicked.now limit = limit := by
    rw [hnow]
    unfold advance
    omega
  unfold ConcreteCluster.runSlot
  rw [hlimit]
  refine ⟨?_, fun fuel c' hrun => ?_⟩
  · obtain ⟨fuel, hfuel⟩ := runUntil_returns ch.harness (h.prompt ht).sound hlt
    exact ⟨fuel, by rw [Option.isSome_map]; exact hfuel⟩
  · obtain ⟨k, hk, rfl⟩ := Option.map_eq_some_iff.1 hrun
    obtain ⟨hend, hle, hcost⟩ := runUntil_invariant
      (I := fun k => Prompt s D k ∧ k.now ≤ limit ∧
        (2 * D < RETRY_DELAY_TICKS → s.n / 2 + 1 ≤ s.up.card → Frugal s D k)) ch.harness
      (fun k hkeep _ hdue => by
        obtain ⟨hprompt, -, hfrugal⟩ := hkeep
        obtain ⟨time, hle, hsoon, hhap, hprompt', hnow'⟩ := hprompt.due ht hp hlt hdue
        exact ⟨hprompt', hnow'.trans_le hle, fun hretry hmajority =>
          (hfrugal hretry hmajority).turn hprompt hretry hmajority (hle.trans_lt hlt) hsoon hhap⟩)
      ⟨h.prompt ht, hnow.trans_le (Nat.zero_le _), fun _ _ => h.frugal⟩ hk
    exact ⟨hend, hle, (runUntil_ends hk).resolve_left fun hne => hne hend.ok, hcost⟩

/-- a replica is activated as soon as its delay is over -/
theorem Prompt.activated_iff (h : Prompt s D k) (hlt : limit < MAX) (hnow : k.now ≤ limit) (hover : k.due limit = false)
    (hnd : k.nodes i = some nd) (hup : s.down i = false) : nd.proposer.activated = true ↔ s.start i ≤ limit := by
  have hlater : ∀ {id : TimerId} {time : ℕ}, Slot.starters i k.pending = {⟨i, id, time⟩} → limit < time := by
    intro id time hone
    have hmem : (⟨i, id, time⟩ : PendingTimer) ∈ Slot.starters i k.pending := by
      rw [hone]
      exact Multiset.mem_singleton_self _
    exact later_timer h.sound hover (Multiset.mem_of_mem_filter hmem)
  cases h.stage i nd hnd hup with
  | idle _ _ ha hpend =>
    have hlate := hlater hpend
    rw [ha, Slot.start]
    exact iff_of_false Bool.false_ne_true (by omega)
  | waiting _ _ ha hpend =>
    have hlate := hlater hpend
    rw [ha]
    exact iff_of_false Bool.false_ne_true (by omega)
  | active _ _ ha _ hstart => exact iff_of_true ha (hstart.trans hnow)
  | decided _ _ ha _ hstart => exact iff_of_true ha (hstart.trans hnow)

/-- a replica decides nothing but the leader's value, and that in the first step -/
theorem Prompt.decided_value (h : Prompt s D k) (hnd : k.nodes i = some nd) (hup : s.down i = false) {v : V}
    (hv : nd.proposer.decided = some v) : v = s.value ∧ nd.proposer.decidedViaFastPath = true := by
  cases h.stage i nd hnd hup with
  | idle _ hd => rw [hd] at hv; cases hv
  | waiting _ hd => rw [hd] at hv; cases hv
  | active _ hd => rw [hd] at hv; cases hv
  | decided hstep hd =>
    rw [hd] at hv
    refine ⟨(Option.some.inj hv).symm, ?_⟩
    unfold Proposer.decidedViaFastPath
    rw [hd, hstep]
    rfl

/-- a round trip after its start it has heard every live recorder, and has decided -/
theorem Prompt.decides (h : Prompt s D k) (hlt : limit < MAX) (hnow : k.now ≤ limit) (hover : k.due limit = false)
    (hmajority : s.n / 2 + 1 ≤ s.up.card) (hnd : k.nodes i = some nd) (hup : s.down i = false)
    (htrip : s.start i + 2 * D ≤ limit) : nd.proposer.decided = some s.value :=
  h.settled hmajority hnd hup ((h.activated_iff hlt hnow hover hnd hup).2 (by omega)) fun _ hv =>
    htrip.trans_lt (later_voyage h.sound hover hv)

section Values

variable [LinearOrder V] {initialValues : Concrete.ByReplica V} {leader : NodeId} {value : V}
  {activationDelays : Concrete.ByReplica ℕ} {crashed : List NodeId}

omit [LinearOrder V] in
theorem Slot.timely_ofValues (hD : 1 ≤ D) (hids : ∀ i, i ∈ initialValues ↔ i < initialValues.keys.length)
    (hvalue : initialValues.lookup leader = some value) (hup : leader ∉ crashed)
    (hprompt : (activationDelays.lookup leader).getD 0 = 0)
    (hpatient : ∀ i ∈ initialValues, i ≠ leader → D ≤ (activationDelays.lookup i).getD 0) :
    (ofValues initialValues leader value activationDelays crashed).Timely D where
  pos := hD
  known := (hids leader).1 (AList.lookup_isSome.1 (by rw [hvalue]; rfl))
  up := decide_eq_false hup
  prompt := hprompt
  patient := fun i hi => hpatient i ((hids i).2 hi)

omit [LinearOrder V] in
theorem Slot.most_up (hmajority : initialValues.keys.length / 2 + 1 ≤
    ((List.range initialValues.keys.length).filter fun j => j ∉ crashed).length) :
    (ofValues initialValues leader value activationDelays crashed).n / 2 + 1 ≤
      (ofValues initialValues leader value activationDelays crashed).up.card := by
  rw [Slot.up_card]
  simpa [ofValues] using hmajority

variable (initialValues leader value activationDelays crashed)

/-- **The fast path takes one round trip.** Where messages arrive within `D` ticks, the leader is up and starts at once,
the others' delays are `D` or more and a majority is up, each live replica begins round 1 when its delay is over, decides
nothing but the leader's value and only on the fast path, and does so within `2 * D` ticks. -/
theorem fast_path_in_one_round_trip (ch : ConcreteCluster.Chance V) (hD : 1 ≤ D) (hpunctual : Punctual D ch.decide)
    (hids : ∀ i, i ∈ initialValues ↔ i < initialValues.keys.length)
    (hvalue : initialValues.lookup leader = some value) (hup : leader ∉ crashed)
    (hprompt : (activationDelays.lookup leader).getD 0 = 0)
    (hpatient : ∀ i ∈ initialValues, i ≠ leader → D ≤ (activationDelays.lookup i).getD 0)
    (hmajority : initialValues.keys.length / 2 + 1 ≤
      ((List.range initialValues.keys.length).filter fun j => j ∉ crashed).length)
    {maxTicks : ℕ} (hlt : maxTicks < MAX) :
    let c := crashed.foldl (ConcreteCluster.crash ch)
      (ConcreteCluster.newWithDelays initialValues (some leader) activationDelays)
    (∃ fuel, (c.runSlot ch fuel maxTicks).isSome = true) ∧
      ∀ fuel c', c.runSlot ch fuel maxTicks = some c' → ∀ i ∈ initialValues, i ∉ crashed →
        (c'.activated i = true ↔ 1 + (activationDelays.lookup i).getD 0 ≤ maxTicks) ∧
        (∀ v, c'.decided i = some v → v = value ∧ c'.decidedViaFastPath i = true) ∧
        (1 + (activationDelays.lookup i).getD 0 + 2 * D ≤ maxTicks →
          c'.decided i = some value ∧ c'.decidedViaFastPath i = true) := by
  intro c
  have hready : c.Ready (.ofValues initialValues leader value activationDelays crashed) :=
    ready_crashed initialValues leader value activationDelays hids hvalue ch crashed
  obtain ⟨hreturns, hends⟩ :=
    hready.runSlot (Slot.timely_ofValues hD hids hvalue hup hprompt hpatient) hpunctual hlt
  refine ⟨hreturns, fun fuel c' hrun i hi hlive => ?_⟩
  obtain ⟨h, hnow, hover, -⟩ := hends fuel c' hrun
  obtain ⟨nd, hnd⟩ := Option.isSome_iff_exists.1 ((h.members i).2 ((hids i).1 hi))
  have hdown : (Slot.ofValues initialValues leader value activationDelays crashed).down i = false := decide_eq_false hlive
  have hvalues : ∀ v, nd.proposer.decided = some v → v = value ∧ nd.proposer.decidedViaFastPath = true := fun v hv =>
    h.decided_value hnd hdown hv
  unfold ConcreteCluster.activated ConcreteCluster.decided ConcreteCluster.decidedViaFastPath
  rw [hnd]
  refine ⟨h.activated_iff hlt hnow hover hnd hdown, hvalues, fun htrip => ?_⟩
  have hdecided : nd.proposer.decided = some value := h.decides hlt hnow hover (Slot.most_up hmajority) hnd hdown htrip
  exact ⟨hdecided, (hvalues value hdecided).2⟩

/-- **What a slot costs.** Where a round trip is over before the first retry too, each replica that activated costs one
request to each replica and one reply of each live one, once its requests have had time to arrive. -/
theorem messages_exact (ch : ConcreteCluster.Chance V) (hD : 1 ≤ D) (hpunctual : Punctual D ch.decide)
    (hretry : 2 * D < RETRY_DELAY_TICKS) (hids : ∀ i, i ∈ initialValues ↔ i < initialValues.keys.length)
    (hvalue : initialValues.lookup leader = some value) (hup : leader ∉ crashed)
    (hprompt : (activationDelays.lookup leader).getD 0 = 0)
    (hpatient : ∀ i ∈ initialValues, i ≠ leader → D ≤ (activationDelays.lookup i).getD 0)
    (hmajority : initialValues.keys.length / 2 + 1 ≤
      ((List.range initialValues.keys.length).filter fun j => j ∉ crashed).length)
    {maxTicks : ℕ} (hlt : maxTicks < MAX)
    (harrived : ∀ i ∈ initialValues, i ∉ crashed → 1 + (activationDelays.lookup i).getD 0 ≤ maxTicks →
      1 + (activationDelays.lookup i).getD 0 + D ≤ maxTicks) :
    let c := crashed.foldl (ConcreteCluster.crash ch)
      (ConcreteCluster.newWithDelays initialValues (some leader) activationDelays)
    ∀ fuel c', c.runSlot ch fuel maxTicks = some c' →
      c'.messageCount = (initialValues.keys.length + c.live.length) *
        (c.live.filter fun i => 1 + (activationDelays.lookup i).getD 0 ≤ maxTicks).length := by
  intro c fuel c' hrun
  have hready : c.Ready (.ofValues initialValues leader value activationDelays crashed) :=
    ready_crashed initialValues leader value activationDelays hids hvalue ch crashed
  obtain ⟨-, hends⟩ := hready.runSlot (Slot.timely_ofValues hD hids hvalue hup hprompt hpatient) hpunctual hlt
  obtain ⟨h, hnow, hover, hcost⟩ := hends fuel c' hrun
  have f := hcost hretry (Slot.most_up hmajority)
  have hlive : ∀ i, i ∈ c.live ↔ i ∈ (Slot.ofValues initialValues leader value activationDelays crashed).up := fun i => by
    rw [hready.live, Slot.mem_up]
  have hactive : ∀ i ∈ c.live, ((c'.kernel.nodes i).any (fun nd => nd.proposer.activated) = true ↔
      1 + (activationDelays.lookup i).getD 0 ≤ maxTicks) := by
    intro i hi
    obtain ⟨hn, hdown⟩ := (hready.live i).1 hi
    obtain ⟨nd, hnd⟩ := Option.isSome_iff_exists.1 ((h.members i).2 hn)
    rw [hnd, Option.any_some]
    exact h.activated_iff hlt hnow hover hnd hdown
  -- no request is left on its way
  have hnone : requests c'.kernel.voyages = 0 := by
    apply Multiset.countP_eq_zero.2
    intro v hv hask
    obtain ⟨hdown, hle⟩ := f.first v hv hask
    obtain ⟨hsrc, -⟩ := h.ends v hv
    obtain ⟨nd, hnd⟩ := Option.isSome_iff_exists.1 ((h.members v.2.src).2 hsrc)
    have hact : nd.proposer.activated = true := h.asked v hv nd (by rw [Slot.asker_of_asks hask]; exact hnd)
    have hstart := (h.activated_iff hlt hnow hover hnd hdown).1 hact
    have hlate := later_voyage h.sound hover hv
    have htrip := harrived v.2.src ((hids _).2 hsrc) (of_decide_eq_false hdown) hstart
    exact absurd (hle.trans htrip) (not_le.2 hlate)
  have hlives : (Slot.ofValues initialValues leader value activationDelays crashed).up.card = c.live.length := by
    rw [← List.toFinset_card_of_nodup hready.nodup]
    congr 1
    ext i
    rw [List.mem_toFinset, hlive]
  have hbusy : ((Slot.ofValues initialValues leader value activationDelays crashed).busy c'.kernel.nodes).card =
      (c.live.filter fun i => 1 + (activationDelays.lookup i).getD 0 ≤ maxTicks).length := by
    rw [← List.toFinset_card_of_nodup (hready.nodup.filter _)]
    congr 1
    ext i
    rw [List.mem_toFinset, List.mem_filter, decide_eq_true_iff, hlive]
    exact Finset.mem_filter.trans (and_congr_right fun hi => hactive i ((hlive i).2 hi))
  have htotal := f.cost
  rw [hnone, hlives, hbusy] at htotal
  exact htotal

end Values

end Run

/-- one tick for each message -/
def oneTick : ConcreteCluster.Chance ℕ := ⟨oblivious (Fifo.new 1).onSend, fun _ => drawing 1⟩

def trioValues : Concrete.ByReplica ℕ := ((AList.singleton 2 9).insert 1 8).insert 0 7

/-- replicas 1 and 2 leave replica 0 a head start -/
def headStart : Concrete.ByReplica ℕ := (AList.singleton 2 2).insert 1 2

theorem mem_trioValues (i : NodeId) : i ∈ trioValues ↔ i < trioValues.keys.length := by
  have htrio : trioValues.keys.length = 3 := rfl
  unfold trioValues at htrio ⊢
  rw [htrio, AList.mem_insert, AList.mem_insert, AList.mem_keys, AList.keys_singleton, List.mem_singleton]
  have hthree : ∀ j : ℕ, j = 0 ∨ j = 1 ∨ j = 2 ↔ j < 3 := by omega
  exact hthree i

theorem headStart_patient : ∀ i ∈ trioValues, i ≠ 0 → max 1 1 ≤ (headStart.lookup i).getD 0 := by
  intro i hi hne
  have hlt : i < 3 := (mem_trioValues i).1 hi
  interval_cases i
  · exact absurd rfl hne
  · decide
  · decide

theorem fast_path_in_one_round_trip_two_of_three : ∃ c',
    ((ConcreteCluster.newWithDelays trioValues (some 0) headStart).crash oneTick 2).runSlot oneTick 20 5 = some c' ∧
      c'.decided 1 = some 7 ∧ c'.decidedViaFastPath 1 = true := by
  obtain ⟨c', hrun⟩ := Option.isSome_iff_exists.1
    (show (((ConcreteCluster.newWithDelays trioValues (some 0) headStart).crash oneTick 2).runSlot oneTick 20 5).isSome =
      true by decide +kernel)
  obtain ⟨-, hends⟩ := fast_path_in_one_round_trip trioValues 0 7 headStart [2] oneTick le_rfl (Fifo.punctual 1)
    mem_trioValues rfl (by decide) rfl headStart_patient (by decide) (show 5 < MAX by decide)
  exact ⟨c', hrun, (hends 20 c' hrun 1 ((mem_trioValues 1).2 (by decide)) (by decide)).2.2 (by decide)⟩

theorem messages_exact_two_of_three : ∃ c',
    ((ConcreteCluster.newWithDelays trioValues (some 0) headStart).crash oneTick 2).runSlot oneTick 20 5 = some c' ∧
      c'.messageCount = 10 := by
  have harrived : ∀ i ∈ trioValues, i ∉ [2] → 1 + (headStart.lookup i).getD 0 ≤ 5 →
      1 + (headStart.lookup i).getD 0 + max 1 1 ≤ 5 := by
    intro i hi _ _
    have hlt : i < 3 := (mem_trioValues i).1 hi
    interval_cases i <;> decide
  obtain ⟨c', hrun⟩ := Option.isSome_iff_exists.1
    (show (((ConcreteCluster.newWithDelays trioValues (some 0) headStart).crash oneTick 2).runSlot oneTick 20 5).isSome =
      true by decide +kernel)
  exact ⟨c', hrun, messages_exact trioValues 0 7 headStart [2] oneTick le_rfl (Fifo.punctual 1) (by decide) mem_trioValues
    rfl (by decide) rfl headStart_patient (by decide) (show 5 < MAX by decide) harrived 20 c' hrun⟩

end Queso
