/-
Linearizability of the replicated key-value store while no replica is restarted.

All submissions of one command are one logical operation, from its first submission to its first completion. A `Put`
takes effect where the log first holds it, a `Get` at the slot of its first completion: later copies of a `Put` are
duplicates to the state machine, and a `Get` changes nothing. `Clients` says what a completion rests on: the replica had
applied its slot, and whatever it had applied by then was submitted before.

`linearizable` assembles the linearization from the longest log.
-/
import Queso.Lib.Linearize
import Queso.Smr.Agreement

namespace Queso

namespace Smr

open Linearize (Event Linearization Precedes FirstCompleted)

variable {n : ℕ} {w : Smr} {op : SmrOp}

/-! ## The clients -/

def invokedCommands (w : Smr) : List Command :=
  w.shared.history.filterMap fun
    | .invoked _ c => some c
    | .completed _ _ _ _ => none

def completedCommands (w : Smr) : List Command :=
  w.shared.history.filterMap fun
    | .invoked _ _ => none
    | .completed _ c _ _ => some c

/-- the contract of a `ClientSession`: a submission is a retry, or it is the client's next operation, with a greater
sequence number than all before it and after all of them completed -/
def ObeysSession (w : Smr) : SmrOp → Prop
  | .env _ => True
  | .submit _ c => c ∈ w.invokedCommands ∨
      ∀ d ∈ w.invokedCommands, d.client = c.client → d.seq < c.seq ∧ d ∈ w.completedCommands

instance (w : Smr) (op : SmrOp) : Decidable (ObeysSession w op) := by
  unfold ObeysSession
  split <;> infer_instance

theorem mem_invokedCommands {c : Command} : c ∈ w.invokedCommands ↔ Invoked w c := by
  unfold invokedCommands Invoked InvokedAs
  rw [List.mem_filterMap]
  constructor
  · rintro ⟨e, he, heq⟩
    cases e with
    | invoked id d =>
      obtain rfl := Option.some.inj heq
      exact ⟨id, he⟩
    | completed id d k out => exact absurd heq (by simp)
  · rintro ⟨id, he⟩
    exact ⟨_, he, rfl⟩

theorem mem_completedCommands {c : Command} :
    c ∈ w.completedCommands ↔ ∃ id k out, .completed id c k out ∈ w.shared.history := by
  unfold completedCommands
  rw [List.mem_filterMap]
  constructor
  · rintro ⟨e, he, heq⟩
    cases e with
    | invoked id d => exact absurd heq (by simp)
    | completed id d k out =>
      obtain rfl := Option.some.inj heq
      exact ⟨id, k, out, he⟩
  · rintro ⟨id, k, out, he⟩
    exact ⟨_, he, rfl⟩

/-- by the events `g`, replica `i` had applied slot `k` with `c`, and all up to there was submitted or a probe -/
structure Served (w : Smr) (g : List ClientEvent) (c : Command) (k : ℕ) (out : OpOutcome) (i : NodeId)
    (nd : SmrNode) : Prop where
  node : w.nodes i = some nd
  entry : nd.durable.appliedLog[k]? = some c
  outcome : out = c.outcome ((Kv.replay (nd.durable.appliedLog.take k)).apply c).2
  invoked : ∃ id, .invoked id c ∈ g
  before : ∀ k' d, k' ≤ k → nd.durable.appliedLog[k']? = some d → d = catchUpProbe k' ∨ ∃ id, .invoked id d ∈ g

structure Clients (w : Smr) : Prop where
  client : ∀ c, Invoked w c → c.client ≠ CATCH_UP_CLIENT
  /-- an operation is known by the command it was submitted with -/
  known : ∀ id c, .invoked id c ∈ w.shared.history → id < w.shared.nextOpId ∧
    ∃ r, w.shared.results.lookup id = some r ∧ r.command = c
  served : ∀ g id c k out g', w.shared.history = g ++ .completed id c k out :: g' → ∃ i nd, Served w g c k out i nd

/-- whatever was applied was submitted, or is the probe of its slot -/
theorem Sane.mayCarry (h : Sane n w) {i : NodeId} {nd : SmrNode} {k : ℕ} {c : Command} (hnd : w.nodes i = some nd)
    (hc : nd.durable.appliedLog[k]? = some c) : MayCarry w k c := by
  obtain ⟨s, hs⟩ := h.settled i nd k c hnd hc
  exact h.carries.flows.decided h.arena hs

theorem getElem?_prefix {l m : List Command} (h : l <+: m) {k : ℕ} {c : Command} (hk : l[k]? = some c) :
    m[k]? = some c ∧ m.take k = l.take k := by
  obtain ⟨hlt, -⟩ := List.getElem?_eq_some_iff.1 hk
  obtain ⟨t, rfl⟩ := h
  exact ⟨by rw [List.getElem?_append_left hlt]; exact hk, by rw [List.take_append_of_le_length hlt.le]⟩

theorem Served.step (h : Sane n w) {g : List ClientEvent} {c : Command} {k : ℕ} {out : OpOutcome} {i : NodeId}
    {nd : SmrNode} (hs : Served w g c k out i nd) (op : SmrOp) : ∃ nd', Served (step w op) g c k out i nd' := by
  obtain ⟨nd', hnd'⟩ := node_stays hs.node op
  have hpre := (applied_step h op i).2
  rw [appliedLog_eq hs.node, appliedLog_eq hnd'] at hpre
  obtain ⟨hentry, htake⟩ := getElem?_prefix hpre hs.entry
  obtain ⟨hk, -⟩ := List.getElem?_eq_some_iff.1 hs.entry
  refine ⟨nd', hnd', hentry, by rw [htake]; exact hs.outcome, hs.invoked, fun k' d hle hd => ?_⟩
  obtain ⟨t, ht⟩ := hpre
  rw [← ht, List.getElem?_append_left (by omega)] at hd
  exact hs.before k' d hle hd

theorem snoc_split {α : Type*} {h g g' : List α} {e x : α} (heq : h ++ [e] = g ++ x :: g') :
    g' = [] ∧ g = h ∧ x = e ∨ ∃ g'', h = g ++ x :: g'' := by
  rcases List.eq_nil_or_concat g' with rfl | ⟨l, y, rfl⟩
  · obtain ⟨hg, hx⟩ := List.append_inj' heq rfl
    exact .inl ⟨rfl, hg.symm, (List.cons.inj hx).1.symm⟩
  · refine .inr ⟨l, ?_⟩
    have hassoc : h ++ [e] = (g ++ x :: l) ++ [y] := by rw [heq]; simp
    exact (List.append_inj' hassoc rfl).1

/-- a completion leaves every operation its command -/
theorem complete_known (sh : Shared) (id : OpId) (now slot : ℕ) (outcome : OpOutcome) {j : OpId} {r : OpRecord}
    (hr : sh.results.lookup j = some r) :
    ∃ r', (sh.complete id now slot outcome).results.lookup j = some r' ∧ r'.command = r.command := by
  unfold Shared.complete
  cases hid : sh.results.lookup id with
  | none => exact ⟨r, hr, rfl⟩
  | some s =>
    by_cases hj : j = id
    · subst hj
      obtain rfl := Option.some.inj (hid.symm.trans hr)
      exact ⟨_, AList.lookup_insert .., rfl⟩
    · exact ⟨r, by rw [AList.lookup_insert_ne hj]; exact hr, rfl⟩

/-- a completion is no submission -/
theorem invoked_complete {sh : Shared} {id j : OpId} {now slot : ℕ} {outcome : OpOutcome} {c : Command}
    (hc : .invoked j c ∈ (sh.complete id now slot outcome).history) : .invoked j c ∈ sh.history := by
  rcases complete_history sh id now slot outcome with hsame | ⟨r, -, hsnoc⟩
  · rw [← hsame]; exact hc
  · rw [hsnoc] at hc
    rcases List.mem_append.1 hc with hc | hc
    · exact hc
    · exact absurd (List.mem_singleton.1 hc) (by simp)

theorem known_step (h : Clients w) {id : OpId} {c : Command} (hc : .invoked id c ∈ (step w op).shared.history) :
    id < (step w op).shared.nextOpId ∧ ∃ r, (step w op).shared.results.lookup id = some r ∧ r.command = c := by
  rcases step_cases w op with hstill | ⟨i, nd, d, rfl, hsub⟩ | ⟨i, nd, nd', sh', fx, ev, hnd, hturn, htd⟩
  · rw [hstill.shared] at hc ⊢
    exact h.known id c hc
  · rw [hsub.shared] at hc ⊢
    rcases List.mem_append.1 hc with hc | hc
    · obtain ⟨hlt, r, hr, hcmd⟩ := h.known id c hc
      refine ⟨Nat.lt_succ_of_lt hlt, r, ?_, hcmd⟩
      show (w.shared.results.insert _ _).lookup id = some r
      rw [AList.lookup_insert_ne hlt.ne]
      exact hr
    · have heq := List.mem_singleton.1 hc
      simp only [ClientEvent.invoked.injEq] at heq
      obtain ⟨rfl, rfl⟩ := heq
      exact ⟨Nat.lt_succ_self _, _, AList.lookup_insert .., rfl⟩
  · rw [htd.shared] at hc ⊢
    rcases Turn.shared hturn with ⟨policy, rfl⟩ | ⟨a, oid, now, policy, -, -, -, rfl⟩
    · exact h.known id c hc
    · obtain ⟨hlt, r, hr, hcmd⟩ := h.known id c (invoked_complete hc)
      obtain ⟨r', hr', hcmd'⟩ := complete_known w.shared oid now nd.durable.nextSlot
        (a.command.outcome (nd.durable.kv.apply a.command).2) hr
      exact ⟨by rw [complete_nextOpId]; exact hlt, r', hr', hcmd'.trans hcmd⟩

/-- a new completion is of a slot that the replica just applied -/
theorem served_new (h : Sane n w) (hc : Clients w) {i : NodeId} {nd nd' : SmrNode} {a : CurrentAttempt} {id : OpId}
    {r : OpRecord} (hnd : w.nodes i = some nd) (hnd' : (step w op).nodes i = some nd')
    (ha : nd.currentAttempt = some a) (ho : a.origin = .op id) (hr : w.shared.results.lookup id = some r)
    (hlog : nd'.durable.appliedLog = nd.durable.appliedLog ++ [a.command])
    (hinv : ∀ c, Invoked (step w op) c → Invoked w c) :
    Served (step w op) w.shared.history r.command nd.durable.nextSlot
      (a.command.outcome (nd.durable.kv.apply a.command).2) i nd' := by
  have hop : InvokedAs w id a.command := (h.live i nd a hnd ha).op id ho
  have hcmd : r.command = a.command := by
    obtain ⟨-, r', hr', hcmd⟩ := hc.known id a.command hop
    obtain rfl := Option.some.inj (hr.symm.trans hr')
    exact hcmd
  have hlen := h.length i nd hnd
  rw [hcmd]
  refine ⟨hnd', ?_, ?_, ⟨id, hop⟩, fun k' d _ hd => ?_⟩
  · rw [hlog, ← hlen]
    exact List.getElem?_concat_length
  · rw [hlog, ← hlen, List.take_left, h.kv i nd hnd]
  · exact ((sane_step h op).mayCarry hnd' hd).imp_right (hinv d)

theorem served_step (h : Sane n w) (hc : Clients w) {g g' : List ClientEvent} {id : OpId} {c : Command} {k : ℕ}
    {out : OpOutcome} (heq : (step w op).shared.history = g ++ .completed id c k out :: g') :
    ∃ i nd, Served (step w op) g c k out i nd := by
  have hold : (∃ g'', w.shared.history = g ++ .completed id c k out :: g'') →
      ∃ i nd, Served (step w op) g c k out i nd := by
    rintro ⟨g'', hg⟩
    obtain ⟨i, nd, hs⟩ := hc.served g id c k out g'' hg
    obtain ⟨nd', hs'⟩ := hs.step h op
    exact ⟨i, nd', hs'⟩
  rcases step_cases w op with hstill | ⟨i, nd, d, rfl, hsub⟩ | ⟨i, nd, nd', sh', fx, ev, hnd, hturn, htd⟩
  · exact hold ⟨g', by rw [← hstill.shared]; exact heq⟩
  · rw [hsub.shared] at heq
    rcases snoc_split heq with ⟨-, -, hx⟩ | hsplit
    · exact absurd hx (by simp)
    · exact hold hsplit
  · have hnd' : (step w op).nodes i = some nd' := by rw [htd.nodes, Function.update_self]
    rw [htd.shared] at heq
    rcases Turn.shared hturn with ⟨policy, rfl⟩ | ⟨a, oid, now, policy, ha, ho, hlog, hsh⟩
    · exact hold ⟨g', heq⟩
    · rcases complete_history w.shared oid now nd.durable.nextSlot
        (a.command.outcome (nd.durable.kv.apply a.command).2) with hsame | ⟨r, hr, hsnoc⟩
      · rw [hsh] at heq
        exact hold ⟨g', hsame.symm.trans heq⟩
      · have hhist : sh'.history = w.shared.history ++ [.completed oid r.command nd.durable.nextSlot
            (a.command.outcome (nd.durable.kv.apply a.command).2)] := by rw [hsh]; exact hsnoc
        rw [hhist] at heq
        rcases snoc_split heq with ⟨-, rfl, hx⟩ | hsplit
        · simp only [ClientEvent.completed.injEq] at hx
          obtain ⟨rfl, rfl, rfl, rfl⟩ := hx
          refine ⟨i, nd', served_new h hc hnd hnd' ha ho hr hlog fun d ⟨j, hj⟩ => ⟨j, ?_⟩⟩
          unfold InvokedAs at hj
          rw [htd.shared, hsh] at hj
          exact invoked_complete hj
        · exact hold hsplit

theorem clients_step (h : Sane n w) (hc : Clients w) (op : SmrOp) : Clients (step w op) where
  client := fun c ⟨id, hid⟩ => by
    rcases invoked_step hid with hold | ⟨hclient, -⟩
    · exact hc.client c ⟨id, hold⟩
    · exact hclient
  known := fun _ _ hi => known_step hc hi
  served := fun _ _ _ _ _ _ heq => served_step h hc heq

theorem cluster_history (s : Setup) : s.cluster.shared.history = [] := by
  cases s <;> rfl

theorem clients_cluster (s : Setup) : Clients s.cluster where
  client := fun c ⟨id, hid⟩ => by
    unfold InvokedAs at hid
    rw [cluster_history] at hid
    exact absurd hid (by simp)
  known := fun id c hc => by rw [cluster_history] at hc; exact absurd hc (by simp)
  served := fun g id c k out g' heq => by rw [cluster_history] at heq; exact absurd heq (by simp)

/-! ## The history of operations -/

def ClientEvent.event : ClientEvent → Event Command OpOutcome
  | .invoked _ c => .invoked c
  | .completed _ c _ out => .completed c out

/-- submissions and completions of the logical operations -/
def opHistory (w : Smr) : List (Event Command OpOutcome) := w.shared.history.map ClientEvent.event

theorem invoked_opHistory {g : List ClientEvent} {c : Command} :
    .invoked c ∈ g.map ClientEvent.event ↔ ∃ id, .invoked id c ∈ g := by
  rw [List.mem_map]
  constructor
  · rintro ⟨e, he, heq⟩
    cases e with
    | invoked id d =>
      simp only [ClientEvent.event, Event.invoked.injEq] at heq
      exact ⟨id, heq ▸ he⟩
    | completed id d k out => exact absurd heq (by simp [ClientEvent.event])
  · rintro ⟨id, he⟩
    exact ⟨_, he, rfl⟩

theorem completed_opHistory {g : List ClientEvent} {c : Command} {out : OpOutcome} :
    .completed c out ∈ g.map ClientEvent.event ↔ ∃ id k, .completed id c k out ∈ g := by
  rw [List.mem_map]
  constructor
  · rintro ⟨e, he, heq⟩
    cases e with
    | invoked id d => exact absurd heq (by simp [ClientEvent.event])
    | completed id d k o =>
      simp only [ClientEvent.event, Event.completed.injEq] at heq
      obtain ⟨rfl, rfl⟩ := heq
      exact ⟨id, k, he⟩
  · rintro ⟨id, k, he⟩
    exact ⟨_, he, rfl⟩

/-- the operations of one client follow each other -/
structure Ordered (w : Smr) : Prop where
  follows : ∀ c d, Invoked w c → Invoked w d → c.client = d.client → c ≠ d →
    c.seq < d.seq ∧ Precedes (opHistory w) c d ∨ d.seq < c.seq ∧ Precedes (opHistory w) d c

theorem precedes_append {h l : List (Event Command OpOutcome)} {c d : Command} (hp : Precedes h c d) :
    Precedes (h ++ l) c d := by
  obtain ⟨h₁, h₂, rfl, hc, hd⟩ := hp
  exact ⟨h₁, h₂ ++ l, List.append_assoc .., hc, hd⟩

theorem ordered_step (h : Ordered w) (hobey : ObeysSession w op) : Ordered (step w op) := by
  obtain ⟨l, hl⟩ := history_step w op
  have hgrow : opHistory (step w op) = opHistory w ++ l.map ClientEvent.event := by
    unfold opHistory
    rw [hl, List.map_append]
  -- what a submission adds follows all that its client submitted before
  have hnew : ∀ c d, ¬ Invoked w c → Invoked (step w op) c → Invoked w d → d.client = c.client →
      d.seq < c.seq ∧ Precedes (opHistory (step w op)) d c := by
    rintro c d hc ⟨id, hid⟩ hd hclient
    obtain ⟨-, i, rfl⟩ := (invoked_step hid).resolve_left fun hold => hc ⟨id, hold⟩
    rcases hobey with hretry | hnext
    · exact absurd (mem_invokedCommands.1 hretry) hc
    · obtain ⟨hseq, hdone⟩ := hnext d (mem_invokedCommands.2 hd) hclient
      obtain ⟨j, k, out, hj⟩ := mem_completedCommands.1 hdone
      exact ⟨hseq, opHistory w, _, hgrow, ⟨out, completed_opHistory.2 ⟨j, k, hj⟩⟩,
        fun hmem => hc (invoked_opHistory.1 hmem)⟩
  refine ⟨fun c d hc hd hclient hne => ?_⟩
  by_cases hc' : Invoked w c
  · by_cases hd' : Invoked w d
    · rw [hgrow]
      exact (h.follows c d hc' hd' hclient hne).imp (And.imp_right precedes_append) (And.imp_right precedes_append)
    · exact .inl (hnew d c hd' hd hc' hclient)
  · by_cases hd' : Invoked w d
    · exact .inr (hnew c d hc' hc hd' hclient.symm)
    · -- a step submits one command at most
      obtain ⟨⟨id, hid⟩, ⟨id', hid'⟩⟩ := And.intro hc hd
      obtain ⟨-, i, rfl⟩ := (invoked_step hid).resolve_left fun hold => hc' ⟨id, hold⟩
      obtain ⟨-, i', heq⟩ := (invoked_step hid').resolve_left fun hold => hd' ⟨id', hold⟩
      simp only [SmrOp.submit.injEq] at heq
      exact absurd heq.2 hne

theorem ordered_cluster (s : Setup) : Ordered s.cluster :=
  ⟨fun c d ⟨id, hid⟩ => by
    unfold InvokedAs at hid
    rw [cluster_history] at hid
    exact absurd hid (by simp)⟩

/-! ## The longest log -/

/-- every log is a part of `l`, and what `l` holds was submitted or is a probe -/
structure Whole (w : Smr) (l : List Command) : Prop where
  logs : ∀ i, w.appliedLog i <+: l
  carried : ∀ k c, l[k]? = some c → MayCarry w k c

theorem exists_whole (h : Steady n w) (hlt : ∀ i nd, w.nodes i = some nd → i < n) : ∃ l, Whole w l := by
  have hpre : ∀ i j, (w.appliedLog j).length ≤ (w.appliedLog i).length → w.appliedLog j <+: w.appliedLog i := by
    intro i j hle
    rw [List.prefix_iff_getElem?]
    intro k hk
    have hi : k < w.nextSlot i := by rw [← h.sane.length_eq]; omega
    have hj : k < w.nextSlot j := by rw [← h.sane.length_eq]; omega
    rw [h.sane.logs_agree h.spread hi hj, List.getElem?_eq_getElem hk]
  have hnone : ∀ i, w.nodes i = none → w.appliedLog i = [] := by
    intro i hi
    unfold appliedLog
    rw [hi]
  rcases Nat.eq_zero_or_pos n with rfl | hpos
  · refine ⟨[], fun i => ?_, fun k c hc => absurd hc (by simp)⟩
    cases hnd : w.nodes i with
    | none => rw [hnone i hnd]
    | some nd => exact absurd (hlt i nd hnd) (Nat.not_lt_zero _)
  · obtain ⟨i, -, hmax⟩ := Finset.exists_max_image (Finset.range n) (fun i => (w.appliedLog i).length)
      ⟨0, Finset.mem_range.2 hpos⟩
    refine ⟨w.appliedLog i, fun j => ?_, fun k c hc => ?_⟩
    · cases hnd : w.nodes j with
      | none => rw [hnone j hnd]; exact List.nil_prefix
      | some nd => exact hpre i j (hmax j (Finset.mem_range.2 (hlt j nd hnd)))
    · cases hnd : w.nodes i with
      | none => rw [hnone i hnd] at hc; exact absurd hc (by simp)
      | some nd =>
        rw [appliedLog_eq hnd] at hc
        exact h.sane.mayCarry hnd hc

/-! ## The linearization -/

/-- the state machine as a sequential object -/
def kvStep (kv : Kv) (c : Command) : Kv × OpOutcome := ((kv.apply c).1, c.outcome (kv.apply c).2)

/-- the slot at which `c` first completed -/
def firstSlot (g : List ClientEvent) (c : Command) : Option ℕ :=
  g.findSome? fun
    | .completed _ d k _ => if d = c then some k else none
    | .invoked _ _ => none

/-- after the log `pre` the entry `c` takes effect: a `Put` where it first occurs, a `Get` where it first completed -/
def takesEffect (g : List ClientEvent) (pre : List Command) (c : Command) : Bool :=
  if c.isPut then decide (c ∉ pre) else decide (firstSlot g c = some pre.length)

theorem firstSlot_eq {g : List ClientEvent} {c : Command} {k : ℕ} (h : firstSlot g c = some k) :
    ∃ g₁ id out g₂, g = g₁ ++ .completed id c k out :: g₂ ∧ ∀ id' k' out', .completed id' c k' out' ∉ g₁ := by
  obtain ⟨g₁, e, g₂, rfl, he, hno⟩ := List.findSome?_eq_some_iff.1 h
  cases e with
  | invoked id d => exact absurd he (by simp)
  | completed id d k' out =>
    dsimp only at he
    split_ifs at he with hd
    obtain rfl := Option.some.inj he
    subst hd
    exact ⟨g₁, id, out, g₂, rfl, fun id' k' out' hm => absurd (hno _ hm) (by simp)⟩

theorem firstSlot_of_mem {g : List ClientEvent} {c : Command} {id : OpId} {k : ℕ} {out : OpOutcome}
    (h : .completed id c k out ∈ g) : ∃ k', firstSlot g c = some k' := by
  rw [← Option.isSome_iff_exists]
  unfold firstSlot
  rw [List.findSome?_isSome_iff]
  exact ⟨_, h, by simp⟩

theorem firstSlot_append {g g' : List ClientEvent} {c : Command} {k : ℕ} (h : firstSlot g c = some k) :
    firstSlot (g ++ g') c = some k := by
  unfold firstSlot at h ⊢
  rw [List.findSome?_append, h, Option.some_or]

section Assembly

variable {l : List Command}

/-- what a completion says of the longest log -/
theorem Whole.served (hl : Whole w l) (hc : Clients w) {g g' : List ClientEvent} {id : OpId} {c : Command} {k : ℕ}
    {out : OpOutcome} (heq : w.shared.history = g ++ .completed id c k out :: g') :
    l[k]? = some c ∧ out = c.outcome ((Kv.replay (l.take k)).apply c).2 ∧ (∃ id, .invoked id c ∈ g) ∧
      ∀ k' d, k' ≤ k → l[k']? = some d → d = catchUpProbe k' ∨ ∃ id, .invoked id d ∈ g := by
  obtain ⟨i, nd, hs⟩ := hc.served g id c k out g' heq
  have hpre : nd.durable.appliedLog <+: l := by rw [← appliedLog_eq hs.node]; exact hl.logs i
  obtain ⟨hentry, htake⟩ := getElem?_prefix hpre hs.entry
  refine ⟨hentry, by rw [htake]; exact hs.outcome, hs.invoked, fun k' d hle hd => ?_⟩
  obtain ⟨hlt, -⟩ := List.getElem?_eq_some_iff.1 hs.entry
  obtain ⟨t, rfl⟩ := hpre
  rw [List.getElem?_append_left (by omega)] at hd
  exact hs.before k' d hle hd

/-- an entry that takes effect was submitted -/
theorem Whole.invoked (hl : Whole w l) (hc : Clients w) {a b : List Command} {c : Command} (heq : l = a ++ c :: b)
    (heff : takesEffect w.shared.history a c = true) : Invoked w c := by
  unfold takesEffect at heff
  split_ifs at heff with hput
  · have hat : l[a.length]? = some c := by rw [heq]; simp
    rcases hl.carried _ c hat with rfl | hinv
    · exact absurd hput (by simp [catchUpProbe, Command.isPut])
    · exact hinv
  · obtain ⟨g, id, out, g', hg, -⟩ := firstSlot_eq (of_decide_eq_true heff)
    obtain ⟨-, -, ⟨j, hj⟩, -⟩ := hl.served hc hg
    exact ⟨j, by unfold InvokedAs; rw [hg]; exact List.mem_append_left _ hj⟩

/-- a completed operation takes effect, no later than the slot it completed at -/
theorem Whole.effect (hl : Whole w l) (hc : Clients w) {g g' : List ClientEvent} {id : OpId} {c : Command} {k : ℕ}
    {out : OpOutcome} (heq : w.shared.history = g ++ .completed id c k out :: g')
    (hfirst : firstSlot w.shared.history c = some k) :
    ∃ a b, l = a ++ c :: b ∧ a.length ≤ k ∧ takesEffect w.shared.history a c = true := by
  obtain ⟨hk, -⟩ := hl.served hc heq
  obtain ⟨hlt, hget⟩ := List.getElem?_eq_some_iff.1 hk
  have hsplit : l = l.take k ++ c :: l.drop (k + 1) := by
    rw [← hget, List.getElem_cons_drop, List.take_append_drop]
  have hlen : (l.take k).length = k := List.length_take_of_le hlt.le
  by_cases hput : c.isPut = true
  · by_cases hmem : c ∈ l.take k
    · obtain ⟨a, b, hab, hnot⟩ := List.eq_append_cons_of_mem hmem
      refine ⟨a, b ++ c :: l.drop (k + 1), ?_, ?_, ?_⟩
      · rw [← List.cons_append, ← List.append_assoc, ← hab]
        exact hsplit
      · have hle : a.length ≤ (l.take k).length := by rw [hab]; simp
        omega
      · unfold takesEffect
        rw [if_pos hput]
        exact decide_eq_true hnot
    · refine ⟨_, _, hsplit, hlen.le, ?_⟩
      unfold takesEffect
      rw [if_pos hput]
      exact decide_eq_true hmem
  · refine ⟨_, _, hsplit, hlen.le, ?_⟩
    unfold takesEffect
    rw [if_neg hput, hlen]
    exact decide_eq_true hfirst

/-- an operation takes effect once -/
theorem takesEffect_once {g : List ClientEvent} {a b : List Command} {c d : Command}
    (hc : takesEffect g a c = true) (hd : takesEffect g (a ++ c :: b) d = true) : c ≠ d := by
  rintro rfl
  unfold takesEffect at hc hd
  split_ifs at hc hd with hput
  · exact of_decide_eq_true hd (by simp)
  · have heq := Option.some.inj ((of_decide_eq_true hc).symm.trans (of_decide_eq_true hd))
    rw [List.length_append, List.length_cons] at heq
    omega

/-- an operation that had completed before another was submitted takes effect before it -/
theorem Whole.realTime (hl : Whole w l) (hc : Clients w) {a b e : List Command} {c d : Command}
    (heq : l = a ++ c :: (b ++ d :: e)) (heffc : takesEffect w.shared.history a c = true)
    (heffd : takesEffect w.shared.history (a ++ c :: b) d = true) : ¬ Precedes (opHistory w) d c := by
  rintro ⟨h₁, h₂, hsplit, ⟨r, hr⟩, hnot⟩
  obtain ⟨g₁, g₂, hg, rfl, rfl⟩ := List.map_eq_append_iff.1 hsplit
  obtain ⟨id, k, hdone⟩ := completed_opHistory.1 hr
  obtain ⟨k, hk⟩ := firstSlot_of_mem hdone
  obtain ⟨g, id', out, g', rfl, -⟩ := firstSlot_eq hk
  have hfirst : firstSlot w.shared.history d = some k := by rw [hg]; exact firstSlot_append hk
  have hhist : w.shared.history = g ++ .completed id' d k out :: (g' ++ g₂) := by rw [hg]; simp
  obtain ⟨hentry, -, -, hbefore⟩ := hl.served hc hhist
  -- `d` takes effect by slot `k`, so `c` is in the log by then
  have hle : a.length ≤ k := by
    have hlen : (a ++ c :: b).length = a.length + (b.length + 1) := by simp
    unfold takesEffect at heffd
    split_ifs at heffd with hput
    · by_contra hgt
      refine of_decide_eq_true heffd (List.mem_append_left _ ?_)
      rw [heq, List.getElem?_append_left (by omega)] at hentry
      exact List.mem_of_getElem? hentry
    · have hsame := Option.some.inj (hfirst.symm.trans (of_decide_eq_true heffd))
      omega
  have hat : l[a.length]? = some c := by rw [heq]; simp
  rcases hbefore a.length c hle hat with rfl | ⟨j, hj⟩
  · have hinv := hl.invoked hc heq heffc
    exact hc.client _ hinv rfl
  · exact hnot (invoked_opHistory.2 ⟨j, List.mem_append_left _ hj⟩)

/-- the first completion of an operation returned what the log makes of it -/
theorem Whole.outcome (hl : Whole w l) (hc : Clients w) {a b : List Command} {c : Command} {r : OpOutcome}
    (heq : l = a ++ c :: b) (heff : takesEffect w.shared.history a c = true)
    (hr : FirstCompleted (opHistory w) c r) : (kvStep (Kv.replay a) c).2 = r := by
  obtain ⟨h₁, h₂, hsplit, hno⟩ := hr
  obtain ⟨g, g', hg, rfl, hmap⟩ := List.map_eq_append_iff.1 hsplit
  obtain ⟨e, g', rfl, he, -⟩ := List.map_eq_cons_iff.1 hmap
  cases e with
  | invoked id d => exact absurd he (by simp [ClientEvent.event])
  | completed id d k out =>
    simp only [ClientEvent.event, Event.completed.injEq] at he
    obtain ⟨rfl, rfl⟩ := he
    obtain ⟨-, hout, -⟩ := hl.served hc hg
    unfold takesEffect at heff
    split_ifs at heff with hput
    · -- a `Put` returns the same wherever it is applied
      cases d with
      | put _ _ _ _ => rw [hout]; rfl
      | get _ _ _ => exact absurd hput (by simp [Command.isPut])
    · have hk : firstSlot w.shared.history d = some k := by
        unfold firstSlot
        rw [List.findSome?_eq_some_iff]
        refine ⟨g, _, g', hg, if_pos rfl, fun x hx => ?_⟩
        cases x with
        | invoked _ _ => rfl
        | completed id' d' k' out' =>
          refine if_neg fun hd => hno out' ?_
          subst hd
          exact completed_opHistory.2 ⟨id', k', hx⟩
      have hlen := Option.some.inj (hk.symm.trans (of_decide_eq_true heff))
      rw [hout, hlen, heq, List.take_left]
      rfl

/-- the entries of the longest log that take effect linearize the history -/
theorem Whole.linearization (hl : Whole w l) (hc : Clients w) :
    Linearization kvStep Kv.new (opHistory w) (Linearize.kept (takesEffect w.shared.history) [] l) := by
  refine Linearize.of_log ?_ ?_ ?_ ?_ ?_ ?_
  · intro a c b _ heff
    refine Kv.apply_eq_self fun hput => ?_
    unfold takesEffect at heff
    rw [if_pos hput] at heff
    exact not_not.1 (of_decide_eq_false heff)
  · exact fun a c b d e _ heffc heffd => takesEffect_once heffc heffd
  · exact fun a c b heq heff => invoked_opHistory.2 (hl.invoked hc heq heff)
  · intro c r hr
    obtain ⟨id, k, hdone⟩ := completed_opHistory.1 hr
    obtain ⟨k, hk⟩ := firstSlot_of_mem hdone
    obtain ⟨g, id', out, g', hg, -⟩ := firstSlot_eq hk
    obtain ⟨a, b, heq, -, heff⟩ := hl.effect hc hg hk
    exact ⟨a, b, heq, heff⟩
  · exact fun a c b d e heq heffc heffd => hl.realTime hc heq heffc heffd
  · exact fun a c b r heq heff hr => hl.outcome hc heq heff hr

/-- in a linearization every `Put` is new to its client -/
theorem Ordered.putNew (ho : Ordered w) (hlin : Linearization kvStep Kv.new (opHistory w) l) {l₁ l₂ : List Command}
    {c : Command} (heq : l = l₁ ++ c :: l₂) : ((Kv.replay l₁).apply c).2 ≠ .putDuplicate := by
  cases c with
  | get client seq key => exact fun h => absurd h (by simp [Kv.apply])
  | put client seq key value =>
    rw [Kv.apply_put]
    split_ifs with hdup
    · obtain ⟨s, k, v, hmem, hle⟩ := Kv.isDuplicate_replay.1 hdup
      have hall : ∀ d ∈ l, Invoked w d := fun d hd => invoked_opHistory.1 (hlin.invoked d hd)
      have hd := hall _ (by rw [heq]; exact List.mem_append_left _ hmem)
      have hc := hall (.put client seq key value) (by rw [heq]; simp)
      have hnodup := hlin.nodup
      have hreal := hlin.realTime
      rw [heq, List.nodup_append] at hnodup
      rw [heq, List.pairwise_append] at hreal
      have hne : (.put client s k v : Command) ≠ .put client seq key value :=
        hnodup.2.2 _ hmem _ (List.mem_cons_self ..)
      rcases ho.follows _ _ hd hc rfl hne with ⟨hlt, -⟩ | ⟨-, hprec⟩
      · exact absurd hlt (by simpa [Command.seq] using hle)
      · exact absurd hprec (hreal.2.2 _ hmem _ (List.mem_cons_self ..))
    · exact fun h => absurd h (by simp)

end Assembly

/-- **Linearizability.** In every run without restarts whose clients keep the session contract, the history of logical
operations has a linearization that holds every completed operation and every `Put` that any replica has applied. All
submissions of one `(client, seq)` are of one command, and every `Put` of the linearization takes effect. -/
theorem linearizable (s : Setup) (ops : List SmrOp) (hops : ∀ op ∈ ops, restarted op = none)
    (hsession : Runs.Along step ObeysSession s.cluster ops) :
    (∀ c d, Invoked (s.cluster.run ops) c → Invoked (s.cluster.run ops) d → c.clientSeq = d.clientSeq → c = d) ∧
    ∃ l, Linearization kvStep Kv.new (opHistory (s.cluster.run ops)) l ∧
      (∀ i c, c ∈ (s.cluster.run ops).appliedLog i → c.isPut = true → c ∈ l) ∧
      ∀ l₁ c l₂, l = l₁ ++ c :: l₂ → ((Kv.replay l₁).apply c).2 ≠ .putDuplicate := by
  let I : Smr → Prop := fun w => Sane s.size w ∧ Clients w ∧ Ordered w
  obtain ⟨-, hclients, hordered⟩ : I (s.cluster.run ops) :=
    Runs.run_invariant (I := I)
      (fun w op ⟨h, hc, ho⟩ hobey => ⟨sane_step h op, clients_step h hc op, ordered_step ho hobey⟩)
      ⟨sane_cluster s, clients_cluster s, ordered_cluster s⟩ hsession
  obtain ⟨l, hl⟩ := exists_whole (steady_run s hops) fun i nd hnd => node_lt s ops hnd
  have hlin := hl.linearization hclients
  refine ⟨fun c d hc hd heq => ?_, _, hlin, fun i c hc hput => ?_, fun l₁ c l₂ heq => hordered.putNew hlin heq⟩
  · obtain ⟨hclient, hseq⟩ := Prod.mk.inj heq
    by_contra hne
    rcases hordered.follows c d hc hd hclient hne with ⟨hlt, -⟩ | ⟨hlt, -⟩
    · omega
    · omega
  · -- a `Put` takes effect where the longest log first holds it
    obtain ⟨a, b, heq, hnot⟩ := List.eq_append_cons_of_mem ((hl.logs i).subset hc)
    refine Linearize.mem_kept.2 ⟨a, b, heq, ?_⟩
    unfold takesEffect
    rw [if_pos hput]
    exact decide_eq_true hnot

/-- leader 0 decides client 0's `Put`; replica 1 loses slot 0 with client 1's `Get`, decides it at slot 1, and returns
what client 0 wrote -/
def readsBack : List SmrOp :=
  [.submit 0 (.put 0 1 0 10), .submit 1 (.get 1 1 0), wait 1, fire 0 1, fire 0 1, crash 2, deliver 0 1, deliver 0 1,
    deliver 2 1, deliver 1 1, deliver 2 1, deliver 2 1, deliver 3 1, deliver 2 1, deliver 3 1, deliver 2 1, deliver 3 1,
    deliver 3 1, deliver 4 1, deliver 3 1, deliver 4 1, deliver 4 1, deliver 5 1, deliver 4 1, deliver 5 1, deliver 5 1]

theorem linearizable_readsBack :
    .completed (.get 1 1 0) (.get (some 10)) ∈ opHistory ((Setup.leader 3 (some 0)).cluster.run readsBack) ∧
    ∃ l, Linearization kvStep Kv.new (opHistory ((Setup.leader 3 (some 0)).cluster.run readsBack)) l := by
  have hread : .completed (.get 1 1 0) (.get (some 10)) ∈
      opHistory ((Setup.leader 3 (some 0)).cluster.run readsBack) := by decide +kernel
  have hops : ∀ op ∈ readsBack, restarted op = none := by decide +kernel
  have hsession : Runs.Along step ObeysSession (Setup.leader 3 (some 0)).cluster readsBack := by decide +kernel
  obtain ⟨-, l, hlin, -⟩ := linearizable (.leader 3 (some 0)) readsBack hops hsession
  exact ⟨hread, l, hlin⟩

end Smr

end Queso
