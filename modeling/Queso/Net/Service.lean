/-
The service that clients see: sessions, the client library with its retries, and the deployed cluster.

A session numbers its operations and has one of them in flight. The client library tries the replicas one after another,
starting at a different one for each call, in several rounds: each attempt writes the command to a replica, unless the
connection fails, and waits for an outcome until it times out. A call returns the first outcome that it gets, or fails when
all attempts have. What was written is not taken back by a timeout: it may get to the replica later or never, so a command
can be in the log more than once, and that of a failed call can still be decided at any later time.

`calls` lists the calls and their returns. No step reads it. An attempt takes any outcome that the replica released for its
command, also that of an earlier attempt there, and a frame may get through to a process that was started after it was
written, which admits more than the connections do.

- `linearizable_crash_stop`: while no process returns, the calls are linearizable as those of a plain store.
- `linearizable_restarts`: so they are through crashes, disk faults and restarts, under the conditions of `one_log`.
-/
import Queso.Lib.Served
import Queso.Net.Transport
import Queso.Smr.Linearizable

namespace Queso.Net

open Linearize (Call Linearization Served)

/-- the pool of replicas that a client knows -/
structure Client where
  addrs : List NodeId
  nonempty : addrs ≠ []
  maxRounds : ℕ

/-- the replicas that a call tries, in order -/
def Client.attempts (client : Client) (start : ℕ) : List NodeId :=
  (List.range (max client.maxRounds 1)).flatMap fun _ =>
    (List.range client.addrs.length).filterMap fun offset => client.addrs[(start + offset) % client.addrs.length]?

/-- what the application asks for -/
inductive Ask where
  | put (key : Key) (value : Value)
  | get (key : Key)

def Ask.command (client : ClientId) (seq : ℕ) : Ask → Command
  | .put key value => .put client seq key value
  | .get key => .get client seq key

/-- a call in flight: the replicas it has not tried, and the one that it waits for -/
structure Pending where
  command : Command
  remaining : List NodeId
  waiting : Option NodeId

structure Session where
  next : ℕ
  pending : Option Pending

structure Service where
  net : Deployed
  cursor : ℕ
  sessions : ClientId → Session
  /-- the commands that were written to replicas and are on their way -/
  frames : List (NodeId × Command)
  calls : List (Call Command OpOutcome)

inductive ServiceOp where
  | net (o : NetOp)
  | call (client : ClientId) (ask : Ask)
  | attempt (client : ClientId) (connects : Bool)
  | arrive (k : ℕ)
  | answer (client : ClientId) (id : OpId) (record : OpRecord)
  | timeout (client : ClientId)

def NetOp.isSubmit : NetOp → Bool
  | .submit _ _ => true
  | _ => false

namespace Service

def blank : Service := ⟨.blank, 0, fun _ => ⟨0, none⟩, [], []⟩

def setPending (s : Service) (client : ClientId) (p : Option Pending) : Service :=
  { s with sessions := Function.update s.sessions client { s.sessions client with pending := p } }

/-- the outcome of the call with its slot, if the replica released this answer and it is the answer to the call -/
def answered (s : Service) (client : ClientId) (id : OpId) (record : OpRecord) : Option (Command × ℕ × OpOutcome) :=
  match (s.sessions client).pending with
  | some ⟨command, _, some i⟩ =>
    if .outcome id record ∈ (s.net.cluster i).released ∧ record.command = command then
      match record.decidedSlot, record.outcome with
      | some slot, some outcome => some (command, slot, outcome)
      | _, _ => none
    else none
  | _ => none

def step (w : Wire) (b : Bincode) (d : Deployment) (pool : Client) (s : Service) : ServiceOp → Service
  -- the inbox gets commands from clients only
  | .net o => if o.isSubmit then s else { s with net := s.net.step w b d o }
  | .call client ask =>
    if (s.sessions client).pending.isSome then s
    else
      let command := ask.command client (s.sessions client).next
      { s with
        cursor := (s.cursor + 1) % 2 ^ 64
        sessions := Function.update s.sessions client
          ⟨(s.sessions client).next + 1, some ⟨command, pool.attempts (s.cursor % pool.addrs.length), none⟩⟩
        calls := s.calls ++ [.called command] }
  | .attempt client connects =>
    match (s.sessions client).pending with
    | some ⟨command, i :: rest, none⟩ =>
      { s.setPending client (some ⟨command, rest, some i⟩) with
        frames := if connects then s.frames ++ [(i, command)] else s.frames }
    | _ => s
  | .arrive k =>
    match s.frames[k]? with
    | some (i, command) => { s with net := s.net.step w b d (.submit i command), frames := s.frames.eraseIdx k }
    | none => s
  | .answer client id record =>
    match s.answered client id record with
    | some (command, slot, outcome) =>
      { s.setPending client none with calls := s.calls ++ [.returned command slot outcome] }
    | none => s
  | .timeout client =>
    match (s.sessions client).pending with
    -- the last attempt, or a pool that is exhausted: the call fails
    | some ⟨_, [], _⟩ => s.setPending client none
    | some ⟨command, remaining, some _⟩ => s.setPending client (some ⟨command, remaining, none⟩)
    | _ => s

abbrev run (w : Wire) (b : Bincode) (d : Deployment) (pool : Client) (ops : List ServiceOp) : Service :=
  Runs.run (step w b d pool) blank ops

end Service

/-- a store without clients or sequence numbers -/
def storeStep (map : AList fun _ : Key => Value) : Command → (AList fun _ : Key => Value) × OpOutcome
  | .put _ _ key value => (map.insert key value, .put)
  | .get _ _ key => (map, .get (map.lookup key))

/-! ## What a step of the network does -/

/-- the process that steps -/
def NetOp.process : NetOp → Option NodeId
  | .boot i _ _ _ _ => some i
  | .batch i _ _ _ _ => some i
  | .kill i => some i
  | _ => none

/-- the process that is booted -/
def NetOp.booted : NetOp → Option NodeId
  | .boot i _ _ _ _ => some i
  | _ => none

def ClusterOp.booted (o : ClusterOp) : Option NodeId := if o.op.boots then some o.id else none

section Net

variable {w : Wire} {b : Bincode} {d : Deployment} {s : Deployed}

theorem act_cluster (b : Bincode) (d : Deployment) (s : Deployed) (o : ClusterOp) :
    (s.act b d o).cluster = s.cluster.step b d o ∧ (s.act b d o).history = s.history ++ [o] := by
  unfold Deployed.act
  dsimp only
  split_ifs
  · exact handAll_frame ..
  · exact handAll_frame ..

/-- a process steps, or none does -/
theorem step_process (w : Wire) (b : Bincode) (d : Deployment) (s : Deployed) (o : NetOp) :
    (s.step w b d o).cluster = s.cluster ∧ (s.step w b d o).history = s.history ∨
      ∃ co : ClusterOp, o.process = some co.id ∧ o.booted = co.booted ∧
        (s.step w b d o).cluster = s.cluster.step b d co ∧ (s.step w b d o).history = s.history ++ [co] := by
  cases o with
  | listen i =>
    obtain ⟨hcluster, hhistory, -⟩ := listen_frame s i
    exact .inl ⟨hcluster, hhistory⟩
  | boot i fault elapsed rng kill =>
    unfold Deployed.step
    dsimp only
    split_ifs
    · exact .inl ⟨rfl, rfl⟩
    · obtain ⟨hcluster, hhistory, -⟩ := listen_frame s i
      have hact := act_cluster b d (s.listen i) ⟨i, .boot fault elapsed rng kill⟩
      rw [hcluster, hhistory] at hact
      exact .inr ⟨_, rfl, rfl, hact⟩
  | batch i taken clock rng kill =>
    unfold Deployed.step
    dsimp only
    split_ifs
    · exact .inl ⟨rfl, rfl⟩
    split
    · exact .inl ⟨rfl, rfl⟩
    · exact .inr ⟨_, rfl, rfl, act_cluster ..⟩
  | kill i => exact .inr ⟨_, rfl, rfl, act_cluster ..⟩
  | fire i id => left; unfold Deployed.step; dsimp only; split_ifs <;> exact ⟨rfl, rfl⟩
  | submit i command => left; unfold Deployed.step; dsimp only; split_ifs <;> exact ⟨rfl, rfl⟩
  | dial i j sent => left; unfold Deployed.step; dsimp only; split_ifs <;> exact ⟨rfl, rfl⟩
  | forward i j action sent => exact .inl ⟨rfl, rfl⟩
  | receive i j k => left; unfold Deployed.step; dsimp only; split <;> exact ⟨rfl, rfl⟩
  | cut i j k => exact .inl ⟨rfl, rfl⟩

/-- what a replica was told, or will be from its inbox -/
def Deployed.events (s : Deployed) (i : NodeId) : List Event := told s.history i ++ s.inbox i

theorem handAll_asks {k i : NodeId} {c : Command} (rs : List Release) {s : Deployed}
    (hc : .clientSubmit c ∈ (rs.foldl (Deployed.hand k) s).inbox i) : .clientSubmit c ∈ s.inbox i := by
  induction rs generalizing s with
  | nil => exact hc
  | cons r rs ih =>
    have hin := ih hc
    cases r with
    | outcome id record => exact hin
    | sent e =>
      unfold Deployed.hand at hin
      dsimp only at hin
      split_ifs at hin
      · -- what a process sends itself is a message
        change Event.clientSubmit c ∈ Function.update s.inbox k (s.inbox k ++ [.message k e.payload]) i at hin
        by_cases hi : i = k
        · subst hi
          rw [Function.update_self] at hin
          exact (List.mem_append.1 hin).resolve_right (by simp)
        · rwa [Function.update_of_ne hi] at hin
      · exact hin

theorem down_asks {k i : NodeId} {e : Event} (he : e ∈ (s.down k).inbox i) : e ∈ s.inbox i := by
  change e ∈ Function.update s.inbox k [] i at he
  by_cases hi : i = k
  · subst hi
    rw [Function.update_self] at he
    exact absurd he List.not_mem_nil
  · rwa [Function.update_of_ne hi] at he

/-- what comes over a connection is a message -/
theorem receive_message {c : Conn} {e : Event} (he : (c.receive w).2 = some e) : ∃ src m, e = .message src m := by
  unfold Conn.receive at he
  split at he
  · exact absurd he (by simp)
  · exact absurd he (by simp)
  · split at he <;> exact absurd he (by simp)
  · split at he
    · exact ⟨_, _, (Option.some.inj he).symm⟩
    · exact absurd he (by simp)

theorem act_asks {o : ClusterOp} {i : NodeId} {c : Command} (hc : .clientSubmit c ∈ (s.act b d o).events i) :
    .clientSubmit c ∈ told (s.history ++ [o]) i ++ s.inbox i := by
  unfold Deployed.events at hc
  rw [(act_cluster b d s o).2] at hc
  refine List.mem_append.2 ((List.mem_append.1 hc).imp_right fun hin => ?_)
  unfold Deployed.act at hin
  dsimp only at hin
  split_ifs at hin
  · have hbefore := handAll_asks _ (down_asks hin)
    exact hbefore
  · have hbefore := handAll_asks _ hin
    exact hbefore

theorem told_quiet (ops : List ClusterOp) {o : ClusterOp} (ho : o.op.events = []) (i : NodeId) :
    told (ops ++ [o]) i = told ops i := by
  rw [told_snoc, ho]
  split_ifs <;> simp

theorem post_asks {k i : NodeId} {e : Event} {c : Command} (hc : .clientSubmit c ∈ (s.post k e).events i) :
    .clientSubmit c ∈ s.events i ∨ i = k ∧ e = .clientSubmit c := by
  unfold Deployed.events Deployed.post at hc
  dsimp only at hc
  by_cases hi : i = k
  · subst hi
    rw [Function.update_self, ← List.append_assoc] at hc
    exact (List.mem_append.1 hc).imp_right fun hin => ⟨rfl, (List.mem_singleton.1 hin).symm⟩
  · rw [Function.update_of_ne hi] at hc
    exact .inl hc

/-- a command comes from a client -/
theorem step_asks {o : NetOp} {i : NodeId} {c : Command} (hc : .clientSubmit c ∈ (s.step w b d o).events i) :
    .clientSubmit c ∈ s.events i ∨ o = .submit i c := by
  cases o with
  | listen k =>
    obtain ⟨-, hhistory, hinbox⟩ := listen_frame s k
    change Event.clientSubmit c ∈ told (s.listen k).history i ++ (s.listen k).inbox i at hc
    rw [hhistory, hinbox] at hc
    exact .inl hc
  | boot k fault elapsed rng kill =>
    unfold Deployed.step at hc
    dsimp only at hc
    split_ifs at hc
    · exact .inl hc
    · obtain ⟨-, hhistory, hinbox⟩ := listen_frame s k
      have hin := act_asks hc
      rw [told_quiet _ rfl, hhistory, hinbox] at hin
      exact .inl hin
  | batch k taken clock rng kill =>
    unfold Deployed.step at hc
    dsimp only at hc
    split_ifs at hc
    · exact .inl hc
    split at hc
    · exact .inl hc
    · rename_i first ready hevents
      have hin := act_asks hc
      rw [(batch_told (Nat.min_le_right ..) kill hevents).2] at hin
      exact .inl hin
  | kill k =>
    have hin := act_asks hc
    rw [told_quiet _ rfl] at hin
    exact .inl hin
  | fire k id =>
    unfold Deployed.step at hc
    dsimp only at hc
    split_ifs at hc
    · exact .inl ((post_asks hc).resolve_right (by simp))
    · exact .inl hc
  | submit k command =>
    unfold Deployed.step at hc
    dsimp only at hc
    split_ifs at hc
    · refine (post_asks hc).imp_right ?_
      rintro ⟨rfl, he⟩
      rw [Event.clientSubmit.inj he]
    · exact .inl hc
  | dial k j sent => unfold Deployed.step at hc; dsimp only at hc; split_ifs at hc <;> exact .inl hc
  | forward k j action sent => exact .inl hc
  | receive k j n =>
    unfold Deployed.step at hc
    dsimp only at hc
    split at hc
    · exact .inl hc
    · rename_i e he
      refine .inl ((post_asks hc).resolve_right ?_)
      rintro ⟨-, rfl⟩
      obtain ⟨conn, -, hread⟩ := Option.bind_eq_some_iff.1 he
      obtain ⟨src, m, heq⟩ := receive_message hread
      exact absurd heq (by simp)
  | cut k j n => exact .inl hc

end Net

/-! ## A deployment whose processes never return -/

/-- a process that is booted once never returns -/
theorem booted_once (b : Bincode) (d : Deployment) {ops : List ClusterOp} (honce : (ops.filterMap ClusterOp.booted).Nodup) :
    Runs.Along (Cluster.step b d) (fun c o => ¬ Cluster.Returns b c o) .blank ops := by
  induction ops using List.reverseRecOn with
  | nil => trivial
  | append_singleton ops o ih =>
    rw [List.filterMap_append, List.nodup_append] at honce
    obtain ⟨hbefore, -, hnew⟩ := honce
    rw [Runs.along_append]
    refine ⟨ih hbefore, ?_, trivial⟩
    rintro ⟨hboot, -, hback⟩
    have hnone : ∀ o' ∈ ops, o'.id = o.id → o'.op.boots = false := by
      intro o' ho' hid
      by_contra hb
      have hold : o.id ∈ ops.filterMap ClusterOp.booted :=
        List.mem_filterMap.2 ⟨o', ho', by simp [ClusterOp.booted, hb, hid]⟩
      exact hnew o.id hold o.id (by simp [ClusterOp.booted, hboot]) rfl
    have hblank := unbooted_blank b d hnone
    rw [Cluster.run] at hblank
    rw [hblank] at hback
    rcases hback with hfound | hreleased
    · exact absurd hfound (by rw [show findsNothing b Process.blank.disk = true from rfl]; simp)
    · exact hreleased rfl

section Deploy

variable {w : Wire} {b : Bincode} {d : Deployment}

/-- the steps of the processes are those that the run asks for -/
theorem history_ops (w : Wire) (b : Bincode) (d : Deployment) (ops : List NetOp) :
    (∀ co ∈ (Deployed.run w b d ops).history, co.id ∈ ops.filterMap NetOp.process) ∧
      ((Deployed.run w b d ops).history.filterMap ClusterOp.booted).Sublist (ops.filterMap NetOp.booted) := by
  induction ops using List.reverseRecOn with
  | nil => exact ⟨fun _ h => absurd h List.not_mem_nil, .slnil⟩
  | append_singleton ops o ih =>
    obtain ⟨hfrom, hboots⟩ := ih
    rw [Deployed.run, Runs.run_snoc, List.filterMap_append, List.filterMap_append]
    rcases step_process w b d (Runs.run (Deployed.step w b d) .blank ops) o with ⟨-, hsame⟩ | ⟨co, hid, hboot, -, hsnoc⟩
    · rw [hsame]
      exact ⟨fun co hco => List.mem_append_left _ (hfrom co hco), hboots.trans (List.sublist_append_left ..)⟩
    · rw [hsnoc, List.filterMap_append]
      refine ⟨fun co' hco' => ?_, hboots.append ?_⟩
      · rcases List.mem_append.1 hco' with hco' | hco'
        · exact List.mem_append_left _ (hfrom co' hco')
        · refine List.mem_append_right _ (List.mem_filterMap.2 ⟨o, by simp, ?_⟩)
          rw [List.mem_singleton.1 hco']
          exact hid
      · simp [List.filterMap_cons, hboot]

theorem submitted_told {ops : List ClusterOp} {c : Command} (h : Submitted ops c) :
    ∃ i, .clientSubmit c ∈ told ops i := by
  obtain ⟨o, ho, disp, hdisp, he⟩ := h
  refine ⟨o.id, List.mem_flatMap.2 ⟨o, ho, ?_⟩⟩
  rw [if_pos rfl]
  exact he ▸ List.mem_map_of_mem hdisp

theorem asked_ops {ops : List NetOp} {i : NodeId} {c : Command}
    (hc : .clientSubmit c ∈ (Deployed.run w b d ops).events i) : .submit i c ∈ ops := by
  induction ops using List.reverseRecOn with
  | nil => exact absurd hc List.not_mem_nil
  | append_singleton ops o ih =>
    rw [Deployed.run, Runs.run_snoc] at hc
    rcases step_asks hc with hold | rfl
    · exact List.mem_append_left _ (ih hold)
    · simp

/-- a guarded deployment has one log -/
theorem deployed_oneLog (hw : w.RoundTrips) (hb : b.RoundTrips) (d : Deployment) (ops : List NetOp)
    (hids : ∀ i ∈ ops.filterMap NetOp.process, i < d.totalReplicas)
    (hguard : Cluster.Guarded b d (Deployed.run w b d ops).history) :
    OneLog (Deployed.run w b d ops).history (Deployed.run w b d ops).cluster := by
  have hlinked := linked_run hw b d ops
  obtain ⟨hfrom, -⟩ := history_ops w b d ops
  rw [hlinked.cluster]
  refine hguard.oneLog hb ?_
  refine (hlinked.delivers.and (Runs.along_mem (Cluster.step b d) .blank _)).imp fun c o ⟨hdel, ho⟩ => ⟨?_, hdel⟩
  exact hids _ (hfrom o ho)

/-- **One log for the deployed cluster.** While no process is booted twice, whatever the transport loses, delays or reorders
and wherever a process is killed or its disk fails, there is one log of commands that clients submitted and of probes, of
which every replica has a first part, and every outcome that left a replica is that log's. -/
theorem deployed_one_log (hw : w.RoundTrips) (hb : b.RoundTrips) (d : Deployment) (ops : List NetOp)
    (hids : ∀ i ∈ ops.filterMap NetOp.process, i < d.totalReplicas) (honce : (ops.filterMap NetOp.booted).Nodup) :
    OneLog (Deployed.run w b d ops).history (Deployed.run w b d ops).cluster ∧
      ∀ c, Submitted (Deployed.run w b d ops).history c → ∃ i, .submit i c ∈ ops := by
  obtain ⟨-, hboots⟩ := history_ops w b d ops
  constructor
  · exact deployed_oneLog hw hb d ops hids (.inl (booted_once b d (hboots.nodup honce)))
  · intro c hc
    obtain ⟨i, hi⟩ := submitted_told hc
    exact ⟨i, asked_ops (List.mem_append_left _ hi)⟩

end Deploy

/-- replicas 0 and 1, the first of them asked: it proposes, both record the proposal, and it decides -/
def firstTwoDecide : List NetOp :=
  [.fire 0 .kickoff, .batch 0 2 (fun _ => 0) (fun _ => drawing 1) none, .batch 0 1 (fun _ => 0) (fun _ => drawing 1) none,
    .dial 0 1 true, .forward 0 1 .send true, .receive 0 1 0, .receive 0 1 0,
    .batch 1 1 (fun _ => 0) (fun _ => drawing 1) none, .dial 1 0 true, .forward 1 0 .send true, .receive 1 0 0,
    .receive 1 0 0, .batch 0 2 (fun _ => 0) (fun _ => drawing 1) none]

/-- the command is in the inbox before replica 0 has booted -/
def bootAndDecide (command : Command) : List NetOp :=
  [.listen 0, .submit 0 command, .boot 0 none 0 (drawing 1) none, .boot 1 none 0 (drawing 1) none] ++ firstTwoDecide

theorem deployed_one_log_decides :
    let s := Deployed.run .fields (twoSnapshots (.put 2 1 7 9)) Cluster.ledByFirst (bootAndDecide (.put 2 1 7 9))
    (onDisk (s.cluster 0).saves).appliedLog = [.put 2 1 7 9] ∧ OneLog s.history s.cluster := by
  have hb : (twoSnapshots (.put 2 1 7 9)).RoundTrips := Bincode.table_roundTrips (by decide)
  obtain ⟨hone, -⟩ := deployed_one_log Wire.fields_roundTrips hb Cluster.ledByFirst (bootAndDecide (.put 2 1 7 9))
    (by decide) (by decide)
  exact ⟨by decide +kernel, hone⟩

/-! ## A step of the service -/

section Step

variable {w : Wire} {b : Bincode} {d : Deployment} {pool : Client} {s : Service}

/-- all that a step of the service does -/
inductive ServiceStep (w : Wire) (b : Bincode) (d : Deployment) (s : Service) (o : ServiceOp) : Service → Prop where
  | quiet : ServiceStep w b d s o s
  | net (no : NetOp) (ho : o = .net no) (hno : no.isSubmit = false) :
      ServiceStep w b d s o { s with net := s.net.step w b d no }
  | call (client : ClientId) (ask : Ask) (attempts : List NodeId) (cursor : ℕ) (ho : o = .call client ask)
      (hidle : (s.sessions client).pending = none) :
      ServiceStep w b d s o
        ⟨s.net, cursor, Function.update s.sessions client
          ⟨(s.sessions client).next + 1, some ⟨ask.command client (s.sessions client).next, attempts, none⟩⟩,
          s.frames, s.calls ++ [.called (ask.command client (s.sessions client).next)]⟩
  | pending (client : ClientId) (p : Pending) (p' : Option Pending) (frames : List (NodeId × Command))
      (hp : (s.sessions client).pending = some p) (hp' : ∀ q, p' = some q → q.command = p.command)
      (hframes : ∀ f ∈ frames, f ∈ s.frames ∨ f.2 = p.command) :
      ServiceStep w b d s o { s.setPending client p' with frames := frames }
  | arrive (i : NodeId) (command : Command) (frames : List (NodeId × Command)) (hframe : (i, command) ∈ s.frames)
      (hframes : ∀ f ∈ frames, f ∈ s.frames) :
      ServiceStep w b d s o { s with net := s.net.step w b d (.submit i command), frames := frames }
  | answer (client : ClientId) (p : Pending) (i : NodeId) (id : OpId) (record : OpRecord) (slot : ℕ) (outcome : OpOutcome)
      (hp : (s.sessions client).pending = some p) (hrel : .outcome id record ∈ (s.net.cluster i).released)
      (hcommand : record.command = p.command) (hslot : record.decidedSlot = some slot)
      (hout : record.outcome = some outcome) :
      ServiceStep w b d s o { s.setPending client none with calls := s.calls ++ [.returned p.command slot outcome] }

theorem service_step (w : Wire) (b : Bincode) (d : Deployment) (pool : Client) (s : Service) (o : ServiceOp) :
    ServiceStep w b d s o (s.step w b d pool o) := by
  cases o with
  | net no =>
    unfold Service.step
    dsimp only
    split_ifs with hno
    · exact .quiet
    · exact .net no rfl (by simpa using hno)
  | call client ask =>
    unfold Service.step
    dsimp only
    split_ifs with hp
    · exact .quiet
    · exact .call client ask _ _ rfl (by simpa using hp)
  | attempt client connects =>
    unfold Service.step
    dsimp only
    split
    · rename_i command i rest hp
      refine .pending client _ _ _ hp (fun q hq => by rw [← Option.some.inj hq]) fun f hf => ?_
      split_ifs at hf
      · refine (List.mem_append.1 hf).imp_right fun hnew => ?_
        rw [List.mem_singleton.1 hnew]
      · exact .inl hf
    · exact .quiet
  | arrive k =>
    unfold Service.step
    dsimp only
    split
    · rename_i i command hk
      exact .arrive i command _ (List.mem_of_getElem? hk) fun f hf => List.mem_of_mem_eraseIdx hf
    · exact .quiet
  | answer client id record =>
    unfold Service.step
    dsimp only
    split
    · rename_i command slot outcome ha
      unfold Service.answered at ha
      split at ha
      · rename_i command' rest i hp
        split_ifs at ha with hrel
        split at ha
        · rename_i slot' outcome' hslot hout
          obtain ⟨rfl, rfl, rfl⟩ : command' = command ∧ slot' = slot ∧ outcome' = outcome := by simpa using ha
          exact .answer client _ i id record slot' outcome' hp hrel.1 hrel.2 hslot hout
        · exact absurd ha (by simp)
      · exact absurd ha (by simp)
    · exact .quiet
  | timeout client =>
    unfold Service.step
    dsimp only
    split
    · rename_i hp
      exact .pending client _ none s.frames hp (fun q hq => absurd hq (by simp)) fun _ hf => .inl hf
    · rename_i hp
      exact .pending client _ _ s.frames hp (fun q hq => by rw [← Option.some.inj hq]) fun _ hf => .inl hf
    · exact .quiet

end Step

/-! ## The sessions -/

theorem called_snoc {calls : List (Call Command OpOutcome)} {c c' : Command} :
    .called c ∈ calls ++ [.called c'] ↔ .called c ∈ calls ∨ c = c' := by
  rw [List.mem_append, List.mem_singleton]
  exact or_congr_right ⟨Call.called.inj, fun h => h ▸ rfl⟩

theorem called_snoc_returned {calls : List (Call Command OpOutcome)} {c c' : Command} {k : ℕ} {r : OpOutcome} :
    .called c ∈ calls ++ [.returned c' k r] ↔ .called c ∈ calls := by
  rw [List.mem_append, List.mem_singleton]
  exact or_iff_left (by simp)

@[simp] theorem Ask.client_command (ask : Ask) (client : ClientId) (seq : ℕ) : (ask.command client seq).client = client := by
  cases ask <;> rfl

@[simp] theorem Ask.seq_command (ask : Ask) (client : ClientId) (seq : ℕ) : (ask.command client seq).seq = seq := by
  cases ask <;> rfl

/-- each session numbers its calls and has one in flight, and what is written to a replica was called -/
structure Calling (s : Service) : Prop where
  seqs : ∀ c, .called c ∈ s.calls → c.seq < (s.sessions c.client).next
  unique : ∀ c c', .called c ∈ s.calls → .called c' ∈ s.calls → c.client = c'.client → c.seq = c'.seq → c = c'
  pending : ∀ client p, (s.sessions client).pending = some p →
    p.command.client = client ∧ p.command.seq + 1 = (s.sessions client).next ∧ .called p.command ∈ s.calls
  last : ∀ g c k r g', s.calls = g ++ .returned c k r :: g' →
    .called c ∈ g ∧ ∀ c', .called c' ∈ g → c'.client = c.client → c'.seq ≤ c.seq
  frames : ∀ f ∈ s.frames, .called f.2 ∈ s.calls
  asks : ∀ i c, .clientSubmit c ∈ s.net.events i → .called c ∈ s.calls

section Calling

variable {w : Wire} {b : Bincode} {d : Deployment} {s s' : Service} {o : ServiceOp}

theorem calling_step (h : Calling s) (hstep : ServiceStep w b d s o s') : Calling s' := by
  cases hstep with
  | quiet => exact h
  | net no ho hno =>
    refine ⟨h.seqs, h.unique, h.pending, h.last, h.frames, fun i c hc => ?_⟩
    rcases step_asks hc with hold | rfl
    · exact h.asks i c hold
    · exact absurd hno (by simp [NetOp.isSubmit])
  | call client ask attempts cursor ho hidle =>
    refine ⟨fun c hc => ?_, fun c c' hc hc' hclient hseq => ?_, fun client' p hp => ?_, fun g c k r g' heq => ?_,
      fun f hf => List.mem_append_left _ (h.frames f hf), fun i c hc => List.mem_append_left _ (h.asks i c hc)⟩
    · dsimp only
      rcases called_snoc.1 hc with hold | rfl
      · have hlt := h.seqs c hold
        by_cases hcl : c.client = client
        · rw [hcl, Function.update_self]
          rw [hcl] at hlt
          exact Nat.lt_succ_of_lt hlt
        · rw [Function.update_of_ne hcl]
          exact hlt
      · simp
    · -- the new number is above all before it
      have hnew : ∀ x, .called x ∈ s.calls → x.client = client → x.seq < (s.sessions client).next := fun x hx hcl =>
        hcl ▸ h.seqs x hx
      rcases called_snoc.1 hc with hold | rfl
      · rcases called_snoc.1 hc' with hold' | rfl
        · exact h.unique c c' hold hold' hclient hseq
        · have hlt := hnew c hold (by simpa using hclient)
          rw [hseq, Ask.seq_command] at hlt
          exact absurd hlt (lt_irrefl _)
      · rcases called_snoc.1 hc' with hold' | rfl
        · have hlt := hnew c' hold' (by simpa using hclient.symm)
          rw [← hseq, Ask.seq_command] at hlt
          exact absurd hlt (lt_irrefl _)
        · rfl
    · dsimp only at hp ⊢
      by_cases hcl : client' = client
      · subst hcl
        rw [Function.update_self] at hp ⊢
        obtain rfl := Option.some.inj hp
        exact ⟨by simp, by simp, by simp⟩
      · rw [Function.update_of_ne hcl] at hp ⊢
        obtain ⟨hown, hseq, hcalled⟩ := h.pending client' p hp
        exact ⟨hown, hseq, List.mem_append_left _ hcalled⟩
    · rcases Smr.snoc_split heq with ⟨-, -, hx⟩ | ⟨g'', hold⟩
      · exact absurd hx (by simp)
      · exact h.last g c k r g'' hold
  | pending client p p' frames hp hp' hframes =>
    refine ⟨fun c hc => ?_, h.unique, fun client' q hq => ?_, h.last, fun f hf => ?_, h.asks⟩
    · have hlt := h.seqs c hc
      unfold Service.setPending
      dsimp only
      by_cases hcl : c.client = client
      · rw [hcl, Function.update_self]
        rwa [hcl] at hlt
      · rwa [Function.update_of_ne hcl]
    · unfold Service.setPending at hq ⊢
      dsimp only at hq ⊢
      by_cases hcl : client' = client
      · subst hcl
        rw [Function.update_self] at hq ⊢
        rw [hp' q hq]
        exact h.pending client' p hp
      · rw [Function.update_of_ne hcl] at hq ⊢
        exact h.pending client' q hq
    · rcases hframes f hf with hold | hnew
      · exact h.frames f hold
      · rw [hnew]
        exact (h.pending client p hp).2.2
  | arrive i command frames hframe hframes =>
    refine ⟨h.seqs, h.unique, h.pending, h.last, fun f hf => h.frames f (hframes f hf), fun j c hc => ?_⟩
    rcases step_asks hc with hold | hsub
    · exact h.asks j c hold
    · obtain ⟨-, rfl⟩ := NetOp.submit.inj hsub
      exact h.frames _ hframe
  | answer client p i id record slot outcome hp hrel hcommand hslot hout =>
    obtain ⟨hown, hseq, hcalled⟩ := h.pending client p hp
    refine ⟨fun c hc => ?_, fun c c' hc hc' => h.unique c c' (called_snoc_returned.1 hc) (called_snoc_returned.1 hc'),
      fun client' q hq => ?_, fun g c k r g' heq => ?_, fun f hf => List.mem_append_left _ (h.frames f hf),
      fun j c hc => List.mem_append_left _ (h.asks j c hc)⟩
    · have hlt := h.seqs c (called_snoc_returned.1 hc)
      unfold Service.setPending
      dsimp only
      by_cases hcl : c.client = client
      · rw [hcl, Function.update_self]
        rwa [hcl] at hlt
      · rwa [Function.update_of_ne hcl]
    · unfold Service.setPending at hq ⊢
      dsimp only at hq ⊢
      by_cases hcl : client' = client
      · subst hcl
        rw [Function.update_self] at hq
        exact absurd hq (by simp)
      · rw [Function.update_of_ne hcl] at hq ⊢
        obtain ⟨hown', hseq', hcalled'⟩ := h.pending client' q hq
        exact ⟨hown', hseq', List.mem_append_left _ hcalled'⟩
    · rcases Smr.snoc_split heq with ⟨-, rfl, hx⟩ | ⟨g'', hold⟩
      · obtain ⟨rfl, -, -⟩ := Call.returned.inj hx
        refine ⟨hcalled, fun c' hc' hclient => ?_⟩
        have hlt := h.seqs c' hc'
        rw [hclient, hown] at hlt
        omega
      · exact h.last g c k r g'' hold

theorem calling_blank : Calling .blank where
  seqs := fun _ hc => absurd hc List.not_mem_nil
  unique := fun _ _ hc => absurd hc List.not_mem_nil
  pending := fun _ _ hp => absurd hp (by simp [Service.blank])
  last := fun g _ _ _ _ heq => by
    have hlen := congrArg List.length heq
    simp [Service.blank] at hlen
  frames := fun _ hf => absurd hf List.not_mem_nil
  asks := fun _ _ hc => absurd hc List.not_mem_nil

end Calling

/-! ## What a return promises -/

/-- the log of `d` holds the call at its slot, with that outcome, and up to there nothing that was called later than `g` -/
structure Answers (d : Durable) (g : List (Call Command OpOutcome)) (c : Command) (k : ℕ) (r : OpOutcome) : Prop where
  entry : d.appliedLog[k]? = some c
  outcome : r = c.outcome ((Kv.replay (d.appliedLog.take k)).apply c).2
  before : ∀ k' x, k' ≤ k → d.appliedLog[k']? = some x → x = catchUpProbe k' ∨ .called x ∈ g

theorem Answers.extend {d : Durable} {g : List (Call Command OpOutcome)} {c : Command} {k : ℕ} {r : OpOutcome}
    (h : Answers d g c k r) {log : List Command} (hlog : d.appliedLog <+: log) :
    log[k]? = some c ∧ r = c.outcome ((Kv.replay (log.take k)).apply c).2 ∧
      ∀ k' x, k' ≤ k → log[k']? = some x → x = catchUpProbe k' ∨ .called x ∈ g := by
  obtain ⟨hentry, htake⟩ := Smr.getElem?_prefix hlog h.entry
  obtain ⟨hlt, -⟩ := List.getElem?_eq_some_iff.1 h.entry
  refine ⟨hentry, by rw [htake]; exact h.outcome, fun k' x hle hx => ?_⟩
  obtain ⟨more, rfl⟩ := hlog
  rw [List.getElem?_append_left (by omega)] at hx
  exact h.before k' x hle hx

/-- each process keeps its books, and each return was answered from the log of a replica -/
structure Kept (b : Bincode) (s : Service) : Prop where
  calling : Calling s
  sound : ∀ i, Sound b (s.net.cluster i)
  returns : ∀ g c k r g', s.calls = g ++ .returned c k r :: g' →
    ∃ i, Answers (onDisk (s.net.cluster i).saves) g c k r

section Kept

variable {w : Wire} {b : Bincode} {d : Deployment} {s s' : Service} {o : ServiceOp}

/-- what is on disk stays there -/
theorem net_sound (hb : b.RoundTrips) {n : Deployed} (h : ∀ i, Sound b (n.cluster i)) (no : NetOp) (i : NodeId) :
    Sound b ((n.step w b d no).cluster i) ∧
      Grows (onDisk (n.cluster i).saves) (onDisk ((n.step w b d no).cluster i).saves) := by
  rcases step_process w b d n no with ⟨hcluster, -⟩ | ⟨co, -, -, hcluster, -⟩
  · rw [hcluster]
    exact ⟨h i, .refl _⟩
  · rw [hcluster, Cluster.step]
    by_cases hi : i = co.id
    · subst hi
      rw [Function.update_self]
      exact sound_step (d.config co.id) hb (h co.id) co.op
    · rw [Function.update_of_ne hi]
      exact ⟨h i, .refl _⟩

/-- an answer is one from the replica's log on disk, all of which was called by now -/
theorem Kept.answers (h : Kept b s) (hone : OneLog s.net.history s.net.cluster) {i : NodeId} {id : OpId}
    {record : OpRecord} {slot : ℕ} {outcome : OpOutcome} (hrel : .outcome id record ∈ (s.net.cluster i).released)
    (hslot : record.decidedSlot = some slot) (hout : record.outcome = some outcome) :
    Answers (onDisk (s.net.cluster i).saves) s.calls record.command slot outcome := by
  obtain ⟨log, hdisk, -, hcarried, -⟩ := hone
  cases (h.sound i).released _ hrel trivial with
  | outcome happlied =>
    obtain ⟨k, hk, -, hat, hres⟩ := happlied
    obtain rfl := Option.some.inj (hslot.symm.trans hk)
    refine ⟨hat, Option.some.inj (hout.symm.trans hres), fun k' x _ hx => ?_⟩
    obtain ⟨hentry, -⟩ := Smr.getElem?_prefix (hdisk i) hx
    refine (hcarried k' x hentry).imp_right fun hsub => ?_
    obtain ⟨j, hj⟩ := submitted_told hsub
    exact h.calling.asks j x (List.mem_append_left _ hj)

theorem kept_step (hb : b.RoundTrips) (h : Kept b s) (hone : OneLog s.net.history s.net.cluster)
    (hstep : ServiceStep w b d s o s') : Kept b s' := by
  have hcalling := calling_step h.calling hstep
  -- a step of the network keeps what was answered
  have hmoves (no : NetOp) : (∀ i, Sound b ((s.net.step w b d no).cluster i)) ∧
      ∀ g c k r g', s.calls = g ++ .returned c k r :: g' →
        ∃ i, Answers (onDisk ((s.net.step w b d no).cluster i).saves) g c k r := by
    refine ⟨fun i => (net_sound hb h.sound no i).1, fun g c k r g' heq => ?_⟩
    obtain ⟨i, ha⟩ := h.returns g c k r g' heq
    obtain ⟨hentry, hout, hbefore⟩ := ha.extend (net_sound (w := w) (d := d) hb h.sound no i).2.log
    exact ⟨i, hentry, hout, hbefore⟩
  cases hstep with
  | quiet => exact h
  | net no ho hno =>
    exact ⟨hcalling, (hmoves no).1, (hmoves no).2⟩
  | call client ask attempts cursor ho hidle =>
    refine ⟨hcalling, h.sound, fun g c k r g' heq => ?_⟩
    rcases Smr.snoc_split heq with ⟨-, -, hx⟩ | ⟨g'', hold⟩
    · exact absurd hx (by simp)
    · exact h.returns g c k r g'' hold
  | pending client p p' frames hp hp' hframes => exact ⟨hcalling, h.sound, h.returns⟩
  | arrive i command frames hframe hframes =>
    exact ⟨hcalling, (hmoves (.submit i command)).1, (hmoves (.submit i command)).2⟩
  | answer client p i id record slot outcome hp hrel hcommand hslot hout =>
    refine ⟨hcalling, h.sound, fun g c k r g' heq => ?_⟩
    rcases Smr.snoc_split heq with ⟨-, rfl, hx⟩ | ⟨g'', hold⟩
    · obtain ⟨rfl, rfl, rfl⟩ := Call.returned.inj hx
      exact ⟨i, hcommand ▸ h.answers hone hrel hslot hout⟩
    · exact h.returns g c k r g'' hold

theorem kept_blank (b : Bincode) : Kept b .blank where
  calling := calling_blank
  sound := fun _ => sound_blank b
  returns := fun g _ _ _ _ heq => by
    have hlen := congrArg List.length heq
    simp [Service.blank] at hlen

/-- a run with one log at each of its states -/
theorem kept_run (hb : b.RoundTrips) (pool : Client) (ops : List ServiceOp)
    (hone : ∀ pre, pre <+: ops →
      OneLog (Service.run w b d pool pre).net.history (Service.run w b d pool pre).net.cluster) :
    Kept b (Service.run w b d pool ops) := by
  induction ops using List.reverseRecOn with
  | nil => exact kept_blank b
  | append_singleton ops o ih =>
    have hbefore := ih fun pre hpre => hone pre (hpre.trans (List.prefix_append ..))
    rw [Service.run, Runs.run_snoc]
    exact kept_step hb hbefore (hone ops (List.prefix_append ..)) (service_step w b d pool _ o)

end Kept

/-! ## Linearizability -/

/-- what changes the state machine is a `Put` that is no duplicate -/
theorem changes_iff {pre : List Command} {c : Command} : Linearize.changes Smr.kvStep Kv.new pre c = true ↔
    c.isPut = true ∧ (Kv.replay pre).isDuplicate c.client c.seq = false := by
  have hreplay : Linearize.replay Smr.kvStep Kv.new pre = Kv.replay pre := rfl
  unfold Linearize.changes
  rw [hreplay, decide_eq_true_eq]
  cases c with
  | get client seq key => simp [Smr.kvStep, Kv.apply, Command.isPut]
  | put client seq key value =>
    rw [Smr.kvStep, Kv.apply_put]
    split_ifs with hdup
    · simp [Command.isPut, Command.client, Command.seq, hdup]
    · simp only [Command.isPut, Command.client, Command.seq, Bool.eq_false_iff, true_and]
      refine iff_of_true (fun heq => hdup ?_) hdup
      have hlast := congrArg (fun kv : Kv => kv.lastSeq.lookup client) heq
      dsimp only at hlast
      rw [AList.lookup_insert] at hlast
      exact Kv.isDuplicate_iff.2 ⟨seq, hlast.symm, le_rfl⟩

theorem log_split {log : List Command} {k : ℕ} {c : Command} (hk : log[k]? = some c) :
    log = log.take k ++ c :: log.drop (k + 1) ∧ (log.take k).length = k := by
  obtain ⟨hlt, hget⟩ := List.getElem?_eq_some_iff.1 hk
  exact ⟨by rw [← hget, List.getElem_cons_drop, List.take_append_drop], List.length_take_of_le hlt.le⟩

section Linearizable

variable {b : Bincode} {s : Service} {log : List Command}

/-- a `Put` that returned took effect, once, by the slot that it returned with -/
theorem Kept.written (h : Kept b s) (hdisk : ∀ i, (onDisk (s.net.cluster i).saves).appliedLog <+: log)
    {g g' : List (Call Command OpOutcome)} {c : Command} {k : ℕ} {r : OpOutcome}
    (heq : s.calls = g ++ .returned c k r :: g') (hput : c.isPut = true) :
    ∃ a t, log = a ++ c :: t ∧ a.length ≤ k ∧ Linearize.changes Smr.kvStep Kv.new a c = true := by
  obtain ⟨i, ha⟩ := h.returns g c k r g' heq
  obtain ⟨hentry, -, hbefore⟩ := ha.extend (hdisk i)
  obtain ⟨hcalled, hlast⟩ := h.calling.last g c k r g' heq
  have hsub : ∀ x, .called x ∈ g → .called x ∈ s.calls := fun x hx => heq ▸ List.mem_append_left _ hx
  -- the first copy of it in the log
  obtain ⟨hlog, hlen⟩ := log_split hentry
  have hmem : c ∈ log.take k ++ [c] := by simp
  obtain ⟨a, t, hat, hfirst⟩ := List.eq_append_cons_of_mem hmem
  have hle : a.length ≤ k := by
    have hsum := congrArg List.length hat
    simp only [List.length_append, List.length_cons, List.length_nil, hlen] at hsum
    omega
  have hall : log = a ++ c :: (t ++ log.drop (k + 1)) := by
    have hcat : log = (log.take k ++ [c]) ++ log.drop (k + 1) := by
      rw [List.append_assoc]
      exact hlog
    rw [hat] at hcat
    exact hcat.trans (by simp)
  refine ⟨a, _, hall, hle, changes_iff.2 ⟨hput, ?_⟩⟩
  by_contra hdup
  obtain ⟨seq, key, value, hold, hseq⟩ := Kv.isDuplicate_replay.1 (by simpa using hdup)
  -- an earlier `Put` of the session would have been called before, with a number as high
  obtain ⟨n, hn⟩ := List.mem_iff_getElem?.1 hold
  obtain ⟨hlt, -⟩ := List.getElem?_eq_some_iff.1 hn
  have hx : log[n]? = some (.put c.client seq key value) := by
    rw [hall, List.getElem?_append_left hlt]
    exact hn
  rcases hbefore n _ (by omega) hx with hprobe | hg
  · exact absurd hprobe (by simp [catchUpProbe])
  · have hsame : seq = c.seq := le_antisymm (hlast _ hg rfl) hseq
    have heqc := h.calling.unique _ _ (hsub _ hg) (hsub _ hcalled) rfl hsame
    exact hfirst (heqc ▸ hold)

/-- **The calls were served from one log.** -/
theorem Kept.served (h : Kept b s) (hreserved : ∀ c, .called c ∈ s.calls → c.client ≠ CATCH_UP_CLIENT)
    (hdisk : ∀ i, (onDisk (s.net.cluster i).saves).appliedLog <+: log)
    (hcarried : ∀ k x, log[k]? = some x → x = catchUpProbe k ∨ .called x ∈ s.calls) :
    Served Smr.kvStep Kv.new Command.isPut s.calls log where
  reads := fun kv c hc => by
    cases c with
    | put client seq key value => exact absurd hc (by simp [Command.isPut])
    | get client seq key => rfl
  once := fun a c t e _ hc => by
    obtain ⟨hput, -⟩ := changes_iff.1 hc
    rw [Bool.eq_false_iff]
    intro hagain
    obtain ⟨-, hnew⟩ := changes_iff.1 hagain
    have hdup : (Kv.replay (a ++ c :: t)).isDuplicate c.client c.seq = true := by
      cases c with
      | get client seq key => exact absurd hput (by simp [Command.isPut])
      | put client seq key value => exact Kv.isDuplicate_replay.2 ⟨seq, key, value, List.mem_append_right _ (List.mem_cons_self ..), le_rfl⟩
    exact absurd (hdup.symm.trans hnew) (by simp)
  called := fun a c t hl hc => by
    obtain ⟨hput, -⟩ := changes_iff.1 hc
    refine (hcarried a.length c (by rw [hl]; simp)).resolve_left ?_
    rintro rfl
    exact absurd hput (by simp [catchUpProbe, Command.isPut])
  entry := fun g c k r g' heq => by
    obtain ⟨i, ha⟩ := h.returns g c k r g' heq
    obtain ⟨hlog, hlen⟩ := log_split (ha.extend (hdisk i)).1
    exact ⟨_, _, hlog, hlen⟩
  asked := fun g c k r g' heq => (h.calling.last g c k r g' heq).1
  before := fun g c k r g' heq a x t hl hle hcalled => by
    obtain ⟨i, ha⟩ := h.returns g c k r g' heq
    refine ((ha.extend (hdisk i)).2.2 a.length x hle (by rw [hl]; simp)).resolve_left ?_
    rintro rfl
    exact hreserved _ hcalled rfl
  written := fun g c k r g' heq hput => h.written hdisk heq hput
  wrote := fun g c k r g' heq hput kv => by
    obtain ⟨i, ha⟩ := h.returns g c k r g' heq
    rw [ha.outcome]
    cases c with
    | put client seq key value => rfl
    | get client seq key => exact absurd hput (by simp [Command.isPut])
  read := fun g c k r g' heq hget a t hl hlen => by
    obtain ⟨i, ha⟩ := h.returns g c k r g' heq
    rw [(ha.extend (hdisk i)).2.1, hl, ← hlen, List.take_left]
    rfl

/-- the state machine at an operation that takes effect is a store without numbers -/
theorem storeStep_agrees {pre : List Command} {c : Command}
    (heff : c.isPut = true → (Kv.replay pre).isDuplicate c.client c.seq = false) :
    (Smr.kvStep (Kv.replay pre) c).1.map = (storeStep (Kv.replay pre).map c).1 ∧
      (Smr.kvStep (Kv.replay pre) c).2 = (storeStep (Kv.replay pre).map c).2 := by
  cases c with
  | get client seq key => exact ⟨rfl, rfl⟩
  | put client seq key value =>
    have hnew : (Kv.replay pre).isDuplicate client seq = false := heff rfl
    rw [Smr.kvStep, Kv.apply_put, hnew]
    exact ⟨rfl, rfl⟩

/-- **The calls are linearizable as those of a plain store.** -/
theorem Kept.linearizes (h : Kept b s) (hreserved : ∀ c, .called c ∈ s.calls → c.client ≠ CATCH_UP_CLIENT)
    (hone : OneLog s.net.history s.net.cluster) : ∃ l, Linearization storeStep ∅ (s.calls.map Call.event) l := by
  obtain ⟨log, hdisk, -, hcarried, -⟩ := hone
  have hserved := h.served hreserved hdisk fun k x hx => (hcarried k x hx).imp_right fun hsub => by
    obtain ⟨i, hi⟩ := submitted_told hsub
    exact h.calling.asks i x (List.mem_append_left _ hi)
  refine ⟨_, hserved.linearization.abstracts Kv.map rfl fun l₁ c l₂ hl => ?_⟩
  -- what precedes an operation in the linearization is what took effect before it in the log
  obtain ⟨a, t, hlog, heff, rfl⟩ := Linearize.kept_split hl
  have hdrop : ∀ a' x t', a = a' ++ x :: t' →
      Linearize.takesEffect Smr.kvStep Kv.new Command.isPut s.calls a' x = false →
        (Smr.kvStep (Linearize.replay Smr.kvStep Kv.new a') x).1 = Linearize.replay Smr.kvStep Kv.new a' := by
    intro a' x t' _ hx
    have hsame := (Bool.or_eq_false_iff.1 hx).1
    exact not_not.1 (of_decide_eq_false hsame)
  rw [Linearize.replay_kept hdrop]
  refine storeStep_agrees fun hput => ?_
  rcases hserved.effect_cases (by simpa using heff) with ⟨-, hc⟩ | ⟨hget, -⟩
  · exact (changes_iff.1 hc).2
  · exact absurd (hput.symm.trans hget) (by simp)

end Linearizable

/-! ## The runs of the service -/

def ServiceOp.netOp : ServiceOp → Option NetOp
  | .net o => some o
  | _ => none

def ServiceOp.client : ServiceOp → Option ClientId
  | .call client _ => some client
  | _ => none

section Runs

variable {w : Wire} {b : Bincode} {d : Deployment} {pool : Client}

/-- the network of the service is a deployment, asked by the clients -/
theorem service_net (w : Wire) (b : Bincode) (d : Deployment) (pool : Client) (ops : List ServiceOp) :
    ∃ nops, (Service.run w b d pool ops).net = Deployed.run w b d nops ∧
      (nops.filter fun o => !o.isSubmit).Sublist (ops.filterMap ServiceOp.netOp) := by
  induction ops using List.reverseRecOn with
  | nil => exact ⟨[], rfl, .slnil⟩
  | append_singleton ops o ih =>
    obtain ⟨nops, hnet, hsub⟩ := ih
    have hmore : (nops.filter fun o => !o.isSubmit).Sublist ((ops ++ [o]).filterMap ServiceOp.netOp) := by
      rw [List.filterMap_append]
      exact hsub.trans (List.sublist_append_left ..)
    rw [Service.run, Runs.run_snoc]
    have hstep := service_step w b d pool (Runs.run (Service.step w b d pool) .blank ops) o
    generalize Service.step w b d pool _ o = s' at hstep
    cases hstep with
    | quiet => exact ⟨nops, hnet, hmore⟩
    | net no ho hno =>
      refine ⟨nops ++ [no], ?_, ?_⟩
      · rw [Deployed.run, Runs.run_snoc, ← Deployed.run, ← hnet]
      · rw [List.filterMap_append, List.filter_append, ho]
        exact hsub.append (List.filter_sublist ..)
    | call client ask attempts cursor ho hidle => exact ⟨nops, hnet, hmore⟩
    | pending client p p' frames hp hp' hframes => exact ⟨nops, hnet, hmore⟩
    | arrive i command frames hframe hframes =>
      refine ⟨nops ++ [.submit i command], ?_, ?_⟩
      · rw [Deployed.run, Runs.run_snoc, ← Deployed.run, ← hnet]
      · rw [List.filter_append]
        simpa [NetOp.isSubmit] using hmore
    | answer client p i id record slot outcome hp hrel hcommand hslot hout => exact ⟨nops, hnet, hmore⟩

/-- what the network was asked for besides commands, the run of the service asks for -/
theorem service_sublist {pre ops : List ServiceOp} {nops : List NetOp}
    (hsub : (nops.filter fun o => !o.isSubmit).Sublist (pre.filterMap ServiceOp.netOp)) (hpre : pre <+: ops)
    {f : NetOp → Option NodeId} (hf : ∀ i c, f (.submit i c) = none) :
    (nops.filterMap f).Sublist ((ops.filterMap ServiceOp.netOp).filterMap f) := by
  have hquiet : nops.filterMap f = (nops.filter fun o => !o.isSubmit).filterMap f := by
    rw [List.filterMap_filter]
    refine List.filterMap_congr fun no _ => ?_
    cases no with
    | submit i c => simp [NetOp.isSubmit, hf]
    | _ => simp [NetOp.isSubmit]
  rw [hquiet]
  exact (hsub.trans (hpre.sublist.filterMap _)).filterMap f

theorem service_history (w : Wire) (b : Bincode) (d : Deployment) (pool : Client) {pre ops : List ServiceOp}
    (hpre : pre <+: ops) : (Service.run w b d pool pre).net.history <+: (Service.run w b d pool ops).net.history := by
  obtain ⟨more, rfl⟩ := hpre
  rw [Service.run, Service.run, Runs.run_append]
  generalize Runs.run (Service.step w b d pool) .blank pre = s
  induction more generalizing s with
  | nil => exact List.prefix_rfl
  | cons o more ih =>
    refine List.IsPrefix.trans ?_ (ih (s.step w b d pool o))
    have hnet : ∀ no, s.net.history <+: (s.net.step w b d no).history := fun no => by
      rcases step_process w b d s.net no with ⟨-, hsame⟩ | ⟨co, -, -, -, hsnoc⟩
      · rw [hsame]
      · rw [hsnoc]
        exact List.prefix_append ..
    have hstep := service_step w b d pool s o
    generalize Service.step w b d pool s o = s' at hstep
    cases hstep with
    | quiet => exact List.prefix_rfl
    | net no ho hno => exact hnet no
    | call client ask attempts cursor ho hidle => exact List.prefix_rfl
    | pending client p p' frames hp hp' hframes => exact List.prefix_rfl
    | arrive i command frames hframe hframes => exact hnet _
    | answer client p i id record slot outcome hp hrel hcommand hslot hout => exact List.prefix_rfl

theorem service_reserved {ops : List ServiceOp} (hreserved : ∀ o ∈ ops, o.client ≠ some CATCH_UP_CLIENT) {c : Command}
    (hc : .called c ∈ (Service.run w b d pool ops).calls) : c.client ≠ CATCH_UP_CLIENT := by
  induction ops using List.reverseRecOn with
  | nil => exact absurd hc List.not_mem_nil
  | append_singleton ops o ih =>
    have hold := ih fun o' ho' => hreserved o' (List.mem_append_left _ ho')
    rw [Service.run, Runs.run_snoc] at hc
    have hstep := service_step w b d pool (Runs.run (Service.step w b d pool) .blank ops) o
    generalize Service.step w b d pool _ o = s' at hstep hc
    cases hstep with
    | quiet => exact hold hc
    | net no ho hno => exact hold hc
    | call client ask attempts cursor ho hidle =>
      rcases called_snoc.1 hc with hc | rfl
      · exact hold hc
      · rw [Ask.client_command]
        rintro rfl
        exact hreserved o (by simp) (by rw [ho]; rfl)
    | pending client p p' frames hp hp' hframes => exact hold hc
    | arrive i command frames hframe hframes => exact hold hc
    | answer client p i id record slot outcome hp hrel hcommand hslot hout => exact hold (called_snoc_returned.1 hc)

/-- **The service is linearizable while no process returns**: whatever the network loses, delays or reorders, wherever
processes are killed and disks fail, and however often and wherever the clients retry. -/
theorem linearizable_crash_stop (hw : w.RoundTrips) (hb : b.RoundTrips) (d : Deployment) (pool : Client)
    (ops : List ServiceOp) (hreserved : ∀ o ∈ ops, o.client ≠ some CATCH_UP_CLIENT)
    (hids : ∀ i ∈ (ops.filterMap ServiceOp.netOp).filterMap NetOp.process, i < d.totalReplicas)
    (honce : ((ops.filterMap ServiceOp.netOp).filterMap NetOp.booted).Nodup) :
    ∃ l, Linearization storeStep ∅ ((Service.run w b d pool ops).calls.map Call.event) l := by
  have hone : ∀ pre, pre <+: ops →
      OneLog (Service.run w b d pool pre).net.history (Service.run w b d pool pre).net.cluster := by
    intro pre hpre
    obtain ⟨nops, hnet, hsub⟩ := service_net w b d pool pre
    obtain ⟨-, hboots⟩ := history_ops w b d nops
    rw [hnet]
    refine deployed_oneLog hw hb d nops (fun i hi => ?_) (.inl (booted_once b d (hboots.nodup ?_)))
    · exact hids i ((service_sublist hsub hpre (by intro _ _; rfl)).subset hi)
    · exact (service_sublist hsub hpre (by intro _ _; rfl)).nodup honce
  exact (kept_run hb pool ops hone).linearizes (fun c hc => service_reserved hreserved hc)
    (hone ops List.prefix_rfl)

end Runs

/-- a client cannot connect to replica 1 and turns to replica 0, which decides its command with replica 1 and answers -/
def turnsToLeader : List ServiceOp :=
  [.net (.boot 0 none 0 (drawing 1) none), .net (.boot 1 none 0 (drawing 1) none), .call 2 (.put 7 9),
    .attempt 2 false, .timeout 2, .attempt 2 true, .arrive 0] ++ firstTwoDecide.map .net ++
  [.answer 2 0 ⟨0, .put 2 0 7 9, 0, some 0, some .put, some 0⟩]

def anyReplica : Client := ⟨[1, 0, 2], by decide, 5⟩

theorem linearizable_turnsToLeader :
    let s := Service.run .fields (twoSnapshots (.put 2 0 7 9)) Cluster.ledByFirst anyReplica turnsToLeader
    s.calls = [.called (.put 2 0 7 9), .returned (.put 2 0 7 9) 0 .put] ∧
      ∃ l, Linearization storeStep ∅ (s.calls.map Call.event) l := by
  refine ⟨by decide +kernel, linearizable_crash_stop Wire.fields_roundTrips (Bincode.table_roundTrips (by decide))
    Cluster.ledByFirst anyReplica turnsToLeader (by decide) ?_ ?_⟩
  · decide
  · decide

section Runs

variable {w : Wire} {b : Bincode}

/-- **The service is linearizable through crashes, disk faults and restarts**, if every reply that completes a phase is
covered, and the leader's process is never taken for one that never ran after it let go of anything. -/
theorem linearizable_restarts (hw : w.RoundTrips) (hb : b.RoundTrips) (d : Deployment) (pool : Client)
    (ops : List ServiceOp) (hreserved : ∀ o ∈ ops, o.client ≠ some CATCH_UP_CLIENT)
    (hids : ∀ i ∈ (ops.filterMap ServiceOp.netOp).filterMap NetOp.process, i < d.totalReplicas)
    (hleader : Runs.Along (Cluster.step b d) (fun c o => d.leader = some o.id → ¬ Cluster.Forgets b c o) .blank
      (Service.run w b d pool ops).net.history)
    (hcov : Runs.Along (Audit.step b d) (Audit.Covered d) .blank (Service.run w b d pool ops).net.history) :
    ∃ l, Linearization storeStep ∅ ((Service.run w b d pool ops).calls.map Call.event) l := by
  have hone : ∀ pre, pre <+: ops →
      OneLog (Service.run w b d pool pre).net.history (Service.run w b d pool pre).net.cluster := by
    intro pre hpre
    obtain ⟨nops, hnet, hsub⟩ := service_net w b d pool pre
    obtain ⟨more, hmore⟩ := service_history w b d pool hpre
    have hguard : Cluster.Guarded b d ((Service.run w b d pool pre).net.history ++ more) := hmore ▸ .inr ⟨hleader, hcov⟩
    rw [hnet] at hguard ⊢
    refine deployed_oneLog hw hb d nops (fun i hi => ?_) hguard.before
    exact hids _ ((service_sublist hsub hpre (by intro _ _; rfl)).subset hi)
  exact (kept_run hb pool ops hone).linearizes (fun c hc => service_reserved hreserved hc)
    (hone ops List.prefix_rfl)

end Runs

/-- the leader is killed after it answered, and rejoins from its snapshot -/
def leaderBack : List ServiceOp :=
  turnsToLeader ++ [.net (.kill 0), .net (.boot 0 none 0 (drawing 1) none)]

theorem linearizable_leaderBack :
    let s := Service.run .fields (twoSnapshots (.put 2 0 7 9)) Cluster.ledByFirst anyReplica leaderBack
    s.calls = [.called (.put 2 0 7 9), .returned (.put 2 0 7 9) 0 .put] ∧ (s.net.cluster 0).running.isSome = true ∧
      ∃ l, Linearization storeStep ∅ (s.calls.map Call.event) l := by
  refine ⟨by decide +kernel, by decide +kernel, linearizable_restarts Wire.fields_roundTrips
    (Bincode.table_roundTrips (by decide)) Cluster.ledByFirst anyReplica leaderBack (by decide) ?_ ?_ ?_⟩
  · decide
  · decide +kernel
  · decide +kernel

end Queso.Net
