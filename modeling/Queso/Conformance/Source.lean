/-
The conformance target: a cluster that a workload drives, and what becomes of the workload's commands.

The target hands each command to one of the live replicas in turn, under its own sequence number, so that no two of its
submissions have the same one. The workload draws payloads from a seeded generator and goes round its clients. What the
target observes of the replicas is not modelled: it reads logs and changes nothing.

The dedup table drops a `Put` that is decided after a later one of its client, so a number of its own is not enough for a
command to take effect. `retagging_overtaken` is a run where a workload's first command is dropped; `retagging_takes_effect`
says when none is.
-/
import Queso.Smr.Overtaking

namespace Queso

/-! ## The workload -/

/-- `SplitMix64::next_u64`: the draw and the next state -/
def SplitMix64.nextU64 (state : UInt64) : UInt64 × UInt64 :=
  let state := state + 0x9e3779b97f4a7c15
  let z := (state ^^^ (state >>> 30)) * 0xbf58476d1ce4e5b9
  let z := (z ^^^ (z >>> 27)) * 0x94d049bb133111eb
  (z ^^^ (z >>> 31), state)

structure CobWorkload where
  rng : UInt64
  clients : ℕ
  key : Key
  issued : ℕ
deriving DecidableEq

namespace CobWorkload

def new (seed : UInt64) : CobWorkload := ⟨seed ^^^ 0x51ed2701a5b4c39f, 4, 0, 0⟩

def withClients (clients : ℕ) (w : CobWorkload) : CobWorkload := { w with clients := max clients 1 }

def withKey (key : Key) (w : CobWorkload) : CobWorkload := { w with key := key }

/-- a `Put` of a fresh payload, read as a signed number; its sequence number is left to the target -/
def nextCommand (w : CobWorkload) : Command × CobWorkload :=
  let (payload, rng) := SplitMix64.nextU64 w.rng
  (.put (w.issued % w.clients) 0 w.key payload.toBitVec.toInt, { w with rng := rng, issued := w.issued + 1 })

/-- the first commands of a workload -/
def commands : ℕ → CobWorkload → List Command
  | 0, _ => []
  | m + 1, w => w.nextCommand.1 :: commands m w.nextCommand.2

end CobWorkload

/-! ## The target -/

/-- with the target's own sequence number -/
def Command.retag (seq : ℕ) : Command → Command
  | .put client _ key value => .put client seq key value
  | .get client _ key => .get client seq key

@[simp] theorem Command.retag_client (seq : ℕ) (c : Command) : (c.retag seq).client = c.client := by cases c <;> rfl

@[simp] theorem Command.retag_seq (seq : ℕ) (c : Command) : (c.retag seq).seq = seq := by cases c <;> rfl

/-- `live` lists the live replicas in ascending order; `nextSubmit` is a `usize` and wraps -/
structure SimCluster where
  cluster : Smr
  replicas : List NodeId
  live : List NodeId
  nextSubmit : ℕ
  seq : ℕ

/-- a call of the target's driver, or one event while the target advances -/
inductive SimOp where
  | submit (command : Command)
  | env (op : EnvOp (NodeId → Draw))

namespace SimCluster

def new (s : Smr.Setup) : SimCluster where
  cluster := s.cluster
  replicas := List.range s.size
  live := List.range s.size
  nextSubmit := 0
  seq := 0

/-- the replica whose turn it is -/
def turn (t : SimCluster) : Option NodeId := t.live[t.nextSubmit % t.live.length]?

def submit (command : Command) (t : SimCluster) : SimCluster :=
  match t.turn with
  | none => t
  | some replica =>
    { t with
      nextSubmit := (t.nextSubmit + 1) % 2 ^ 64
      seq := t.seq + 1
      cluster := t.cluster.step (.submit replica (command.retag (t.seq + 1))) }

/-- the driver's book of the live replicas -/
def noteLive (op : EnvOp (NodeId → Draw)) (live : List NodeId) : List NodeId :=
  match op with
  | .crash id => live.erase id
  | .restart id _ => if id ∈ live then live else live.orderedInsert (· ≤ ·) id
  | _ => live

def step (t : SimCluster) : SimOp → SimCluster
  | .submit command => t.submit command
  | .env op => { t with cluster := t.cluster.step (.env op), live := noteLive op t.live }

abbrev run (t : SimCluster) (ops : List SimOp) : SimCluster := Runs.run step t ops

/-- the commands handed in -/
def submissions (ops : List SimOp) : List Command :=
  ops.filterMap fun
    | .submit command => some command
    | .env _ => none

/-! ## What becomes of the commands -/

/-- applied in the order of the log, no `Put` is a duplicate when it is first applied -/
def TakeEffect (log : List Command) : Prop :=
  ∀ pre c post, log = pre ++ c :: post → c.isPut = true → c ∉ pre → ((Kv.replay pre).apply c).2 = .putNew

/-- every decided command takes effect, at every replica that applied it -/
def PutsTakeEffect (w : Smr) : Prop := ∀ i, TakeEffect (w.appliedLog i)

/-- a submission finds no command of its client queued or in flight at another replica than the one whose turn it is, and
every step is covered -/
def Uncontended (t : SimCluster) : SimOp → Prop
  | .submit command => ∀ i ∈ t.turn, ∀ j ∈ t.replicas, j ≠ i → ∀ nd ∈ t.cluster.nodes j, ∀ d ∈ nd.owing,
      d.client ≠ command.client
  | .env op => Smr.CoveredStep t.cluster (.env op)

instance (t : SimCluster) (op : SimOp) : Decidable (Uncontended t op) := by
  cases op <;> unfold Uncontended <;> infer_instance

/-- the replicas are in line, and every number that was given out is below the next -/
structure Orderly (n : ℕ) (t : SimCluster) : Prop where
  inLine : Smr.InLine n t.cluster
  numbered : ∀ c, Smr.Invoked t.cluster c → c.seq ≤ t.seq
  known : ∀ j nd, t.cluster.nodes j = some nd → j ∈ t.replicas

variable {n : ℕ} {t : SimCluster} {op : SimOp}

/-- **Step lemma.** -/
theorem orderly_step (h : Orderly n t) (hun : Uncontended t op) : Orderly n (t.step op) := by
  cases op with
  | env op =>
    refine ⟨Smr.inLine_step h.inLine hun trivial trivial, fun c ⟨id, hc⟩ => ?_, fun j nd hnd => ?_⟩
    · rcases Smr.invokedAs_cases hc with hc | ⟨-, i, nd, heq, -⟩
      · exact h.numbered c ⟨id, hc⟩
      · cases heq
    · obtain ⟨nd₀, hnd₀⟩ := Smr.node_back hnd
      exact h.known j nd₀ hnd₀
  | submit command =>
    show Orderly n (t.submit command)
    unfold submit
    cases hturn : t.turn with
    | none => exact h
    | some i =>
      have hnum : Smr.Numbered t.cluster (.submit i (command.retag (t.seq + 1))) := by
        intro d hd _
        rw [Command.retag_seq]
        exact Nat.lt_succ_of_le (h.numbered d hd)
      have hal : Smr.Alone t.cluster (.submit i (command.retag (t.seq + 1))) := by
        intro j nd hne hnd d hd
        rw [Command.retag_client]
        exact hun i hturn j (h.known j nd hnd) hne nd hnd d hd
      have hcov : Smr.CoveredStep t.cluster (.submit i (command.retag (t.seq + 1))) := trivial
      refine ⟨Smr.inLine_step h.inLine hcov hnum hal, fun c ⟨id, hc⟩ => ?_, fun j nd hnd => ?_⟩
      · rcases Smr.invokedAs_cases hc with hc | ⟨-, i', nd, heq, -⟩
        · exact (h.numbered c ⟨id, hc⟩).trans (Nat.le_succ _)
        · simp only [SmrOp.submit.injEq] at heq
          rw [← heq.2, Command.retag_seq]
      · obtain ⟨nd₀, hnd₀⟩ := Smr.node_back hnd
        exact h.known j nd₀ hnd₀

theorem orderly_new (s : Smr.Setup) : Orderly s.size (new s) where
  inLine := Smr.inLine_cluster s
  numbered := fun c ⟨id, hc⟩ => by
    unfold Smr.InvokedAs at hc
    have hnil : (new s).cluster.shared.history = [] := Smr.cluster_history s
    rw [hnil] at hc
    cases hc
  known := fun j nd hnd => List.mem_range.2 (Smr.node_lt s [] hnd)

/-- **Run lemma.** -/
theorem orderly_run (s : Smr.Setup) {ops : List SimOp} (h : Runs.Along step Uncontended (new s) ops) :
    Orderly s.size ((new s).run ops) :=
  Runs.run_invariant (I := Orderly s.size) (fun _ _ ho hun => orderly_step ho hun) (orderly_new s) h

/-- commands in line take effect -/
theorem takeEffect_of_inLine {w : Smr} (h : Smr.InLine n w) : PutsTakeEffect w := by
  intro i pre c post hlog hput hnew
  cases hnd : w.nodes i with
  | none =>
    unfold Smr.appliedLog at hlog
    rw [hnd] at hlog
    exact absurd hlog (by simp)
  | some nd =>
    rw [Smr.appliedLog_eq hnd] at hlog
    -- what the log holds was submitted
    have hinv : ∀ d, d ∈ nd.durable.appliedLog → d.isPut = true → Smr.Invoked w d := by
      intro d hd hdput
      obtain ⟨k, hk⟩ := List.mem_iff_getElem?.1 hd
      rcases h.sane.mayCarry hnd hk with rfl | hinv
      · cases hdput
      · exact hinv
    obtain ⟨client, seq, key, value, rfl⟩ : ∃ client seq key value, c = .put client seq key value := by
      cases c with
      | put client seq key value => exact ⟨client, seq, key, value, rfl⟩
      | get => cases hput
    rw [Kv.apply_put]
    split_ifs with hdup
    · exfalso
      obtain ⟨seq', key', value', hmem, hle⟩ := Kv.isDuplicate_replay.1 hdup
      obtain ⟨id, hc⟩ := hinv _ (by rw [hlog]; exact List.mem_append_right _ List.mem_cons_self) rfl
      obtain ⟨id', hd⟩ := hinv _ (by rw [hlog]; exact List.mem_append_left _ hmem) rfl
      rcases lt_trichotomy id id' with hlt | rfl | hlt
      · exact h.no_overtaking hnd hlog hc ⟨_, _, hc, hd, rfl, hlt⟩ hd hmem
      · rw [h.clients.unique hc hd] at hnew
        exact hnew hmem
      · exact absurd hle (not_le.2 (h.numbers id' id _ _ hd hc rfl hlt))
    · rfl

/-- **When retagging is enough.** If every step is covered, and no command is submitted while an earlier one of its client
is queued or in flight at another replica, then every decided command takes effect. -/
theorem retagging_takes_effect (s : Smr.Setup) (ops : List SimOp) (h : Runs.Along step Uncontended (new s) ops) :
    PutsTakeEffect ((new s).run ops).cluster :=
  takeEffect_of_inLine (orderly_run s h).inLine

/-- an event while the target advances -/
def deliver (k : ℕ) : SimOp := .env (.deliver k (drawing 1))

def fire (k : ℕ) : SimOp := .env (.fire k (drawing 1))

def wait (ticks : ℕ) : SimOp := .env (.tick ticks)

/-- a workload of one client -/
def oneClient : CobWorkload := (CobWorkload.new 0).withClients 1

/-- one command at a time: the second is submitted after the first one is decided, and then all messages arrive in the
order they were sent in -/
def inTurn : List SimOp :=
  (oneClient.commands 1).map .submit ++ [wait 1, fire 0, wait 1, deliver 0, deliver 0, deliver 1, deliver 1] ++
    (oneClient.nextCommand.2.commands 1).map .submit ++ [wait 1, fire 1] ++ List.replicate 25 (deliver 0)

theorem retagging_takes_effect_inTurn : PutsTakeEffect ((new (.leader 3 (some 0))).run inTurn).cluster ∧
    ((new (.leader 3 (some 0))).run inTurn).cluster.appliedLog 1 =
      [(oneClient.nextCommand.1).retag 1, (oneClient.nextCommand.2.nextCommand.1).retag 2] := by
  refine ⟨retagging_takes_effect (.leader 3 (some 0)) inTurn ?_, ?_⟩
  · decide +kernel
  · decide +kernel

/-- two commands at once: the second one goes to the leader, which decides it first -/
def overtaking : List SimOp :=
  (oneClient.commands 2).map .submit ++ [wait 1, fire 0, fire 0, wait 1, deliver 3, deliver 3, deliver 3, deliver 3,
    deliver 3, deliver 3, deliver 0, deliver 0, deliver 1, deliver 1, deliver 1, deliver 1, deliver 2, deliver 2, deliver 2,
    deliver 2, deliver 3, deliver 3, deliver 3, deliver 3, deliver 4, deliver 4]

/-- **A command is dropped.** The first command of the workload is decided after the second one, as a duplicate. -/
theorem retagging_overtaken : submissions overtaking = oneClient.commands 2 ∧
    ¬ PutsTakeEffect ((new (.leader 3 (some 1))).run overtaking).cluster := by
  refine ⟨by decide +kernel, fun h => ?_⟩
  have hlog : ((new (.leader 3 (some 1))).run overtaking).cluster.appliedLog 0 =
      [(oneClient.nextCommand.2.nextCommand.1).retag 2] ++ (oneClient.nextCommand.1).retag 1 :: [] := by
    decide +kernel
  have hnew := h 0 _ _ _ hlog (by decide +kernel) (by decide +kernel)
  exact absurd hnew (by decide +kernel)

end SimCluster

end Queso
