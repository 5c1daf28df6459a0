/-
One slot of Algorithm 1, over every run of its driver.

`Trail` is the run as the rounds' contracts tell it: faults change who is live, and a round ends with one value `w` that
all live replicas take over and some decide. What a slot promises follows from that alone. A decision stays; a decided
value is somebody's initial value; and once a value is decided every live replica carries it, so nothing else is decided
later. The last needs that no replica comes back: one that crashed before the decision would carry its old value.

`drive_trail` is the refinement: every run of the driver that does not panic is such a trail.
-/
import Queso.Consensus.Algorithm

namespace Queso.Algorithm

open Sim

variable {V : Type} {back : NodeId → Prop} {c c' c'' : Cluster V} {r : Round V} {rs : List (Round V)}

/-! ## Runs by contract -/

/-- faults change who is live; `back` are the replicas that may come back -/
structure Faulted (back : NodeId → Prop) (c c' : Cluster V) : Prop where
  state : c'.state = c.state
  replicas : c'.replicas = c.replicas
  live : ∀ i ∈ c'.live, i ∈ c.live ∨ back i

/-- a run between two states of the cluster, and its rounds -/
inductive Trail (back : NodeId → Prop) : Cluster V → List (Round V) → Cluster V → Prop
  | nil (c : Cluster V) : Trail back c [] c
  | fault {c c' c'' : Cluster V} {rs : List (Round V)} (h : Faulted back c c') (rest : Trail back c' rs c'') :
    Trail back c rs c''
  | round {c c' c'' : Cluster V} {r : Round V} {rs : List (Round V)} {w : V} (meets : r.Meets c.replicas.length)
    (h : Concludes c c' r w) (rest : Trail back c' rs c'') : Trail back c (r :: rs) c''

theorem Trail.append {rs' : List (Round V)} (h : Trail back c rs c') (h' : Trail back c' rs' c'') :
    Trail back c (rs ++ rs') c'' := by
  induction h with
  | nil => exact h'
  | fault hf _ ih => exact .fault hf (ih h')
  | round hm hc _ ih => exact .round hm hc (ih h')

theorem Faulted.decided (h : Faulted back c c') (i : NodeId) : c'.decided i = c.decided i := by
  unfold Cluster.decided
  rw [h.state]

theorem decided_of {i : NodeId} {st : ReplicaState V} (h : c.state i = some st) : c.decided i = st.decided := by
  unfold Cluster.decided
  rw [h]
  rfl

/-- what a round does to the decision of a replica -/
theorem Concludes.decided {w : V} (h : Concludes c c' r w) (i : NodeId) :
    i ∉ r.newlyDecided ∧ c'.decided i = c.decided i ∨
      i ∈ r.newlyDecided ∧ c.decided i = none ∧ c'.decided i = some w := by
  by_cases hi : i ∈ c.live
  · obtain ⟨st, st', hst, hst', -, hdec⟩ := h.settled i hi
    rw [decided_of hst, decided_of hst']
    exact hdec
  · refine .inl ⟨fun hmem => hi (h.newly i hmem), ?_⟩
    unfold Cluster.decided
    rw [h.others i hi]

theorem Trail.replicas (h : Trail back c rs c') : c'.replicas = c.replicas := by
  induction h with
  | nil => rfl
  | fault hf _ ih => exact ih.trans hf.replicas
  | round _ hc _ ih => exact ih.trans hc.replicas

theorem Trail.state_isSome (h : Trail back c rs c') (i : NodeId) : (c'.state i).isSome = (c.state i).isSome := by
  induction h with
  | nil => rfl
  | fault hf _ ih => rw [ih, hf.state]
  | round _ hc _ ih => exact ih.trans (hc.state_isSome i)

/-- every round meets its contract -/
theorem Trail.meets (h : Trail back c rs c') : ∀ r ∈ rs, r.Meets c.replicas.length := by
  induction h with
  | nil => exact fun r hr => absurd hr List.not_mem_nil
  | fault hf _ ih => rw [← hf.replicas]; exact ih
  | round hm hc _ ih =>
    intro r hr
    rcases List.mem_cons.1 hr with rfl | hr
    · exact hm
    · rw [← hc.replicas]
      exact ih r hr

/-! ## Integrity -/

/-- **A decision stays.** -/
theorem Trail.decided_stays (h : Trail back c rs c') {i : NodeId} {d : V} (hd : c.decided i = some d) :
    c'.decided i = some d ∧ ∀ r ∈ rs, i ∉ r.newlyDecided := by
  induction h with
  | nil => exact ⟨hd, fun r hr => absurd hr List.not_mem_nil⟩
  | fault hf _ ih => exact ih (by rw [hf.decided]; exact hd)
  | round hm hc _ ih =>
    rcases hc.decided i with ⟨hnot, hsame⟩ | ⟨-, hnone, -⟩
    · obtain ⟨hstays, hlater⟩ := ih (hsame.trans hd)
      refine ⟨hstays, fun r hr => ?_⟩
      rcases List.mem_cons.1 hr with rfl | hr
      · exact hnot
      · exact hlater r hr
    · rw [hnone] at hd
      cases hd

/-- **A replica decides at most once**: no two rounds decide at one replica. -/
theorem Trail.decides_once (h : Trail back c rs c') :
    rs.Pairwise fun r r' => r.newlyDecided.Disjoint r'.newlyDecided := by
  induction h with
  | nil => exact .nil
  | fault _ _ ih => exact ih
  | round hm hc rest ih =>
    refine List.pairwise_cons.2 ⟨fun r' hr' i hi hi' => ?_, ih⟩
    rcases hc.decided i with ⟨hnot, -⟩ | ⟨-, -, hdec⟩
    · exact hnot hi
    · exact (rest.decided_stays hdec).2 r' hr' hi'

/-- a replica has decided when some round said so -/
theorem Trail.decided_iff (h : Trail back c rs c') (i : NodeId) :
    (c'.decided i).isSome ↔ (c.decided i).isSome ∨ ∃ r ∈ rs, i ∈ r.newlyDecided := by
  induction h with
  | nil => simp
  | fault hf _ ih => rw [ih, hf.decided]
  | round hm hc _ ih =>
    rw [ih]
    rcases hc.decided i with ⟨hnot, hsame⟩ | ⟨hmem, hnone, hdec⟩
    · rw [hsame]
      simp [hnot]
    · simp [hdec, hmem]

/-! ## Validity -/

/-- all values of the cluster meet `P` -/
def Genuine (P : V → Prop) (c : Cluster V) : Prop :=
  ∀ i st, c.state i = some st → P st.v ∧ ∀ d, st.decided = some d → P d

/-- **A round invents no value.** -/
theorem Concludes.genuine {P : V → Prop} {w : V} (h : Concludes c c' r w) (hP : Genuine P c) : Genuine P c' := by
  obtain ⟨j, -, stj, hstj, hw⟩ := h.proposed
  have hPw : P w := hw ▸ (hP j stj hstj).1
  intro i st' hst'
  by_cases hi : i ∈ c.live
  · obtain ⟨st, st'', hst, hst'', hv, hdec⟩ := h.settled i hi
    obtain rfl : st' = st'' := Option.some.inj (hst'.symm.trans hst'')
    refine ⟨hv ▸ hPw, fun d hd => ?_⟩
    rcases hdec with ⟨-, hsame⟩ | ⟨-, -, hnew⟩
    · exact (hP i st hst).2 d (hsame ▸ hd)
    · obtain rfl := Option.some.inj (hnew.symm.trans hd)
      exact hPw
  · rw [h.others i hi] at hst'
    exact hP i st' hst'

theorem Trail.genuine {P : V → Prop} (h : Trail back c rs c') (hP : Genuine P c) : Genuine P c' := by
  induction h with
  | nil => exact hP
  | fault hf _ ih => exact ih fun i st hst => hP i st (hf.state ▸ hst)
  | round _ hc _ ih => exact ih (hc.genuine hP)

/-! ## Agreement -/

/-- once a value is decided, every live replica carries it and nothing else is decided -/
def Agreed (c : Cluster V) : Prop :=
  ∀ i d, c.decided i = some d → (∀ j ∈ c.live, ∃ st, c.state j = some st ∧ st.v = d) ∧
    ∀ j e, c.decided j = some e → e = d

/-- **A round after a decision can only carry it on**, and a first decision is the same everywhere. -/
theorem Concludes.agreed {w : V} (h : Concludes c c' r w) (hagreed : Agreed c) : Agreed c' := by
  -- what is decided after the round is the value all live replicas then carry
  have hcarried : ∀ i d, c'.decided i = some d → d = w := by
    intro i d hd
    rcases h.decided i with ⟨-, hsame⟩ | ⟨-, -, hnew⟩
    · obtain ⟨j, hj, st, hst, hw⟩ := h.proposed
      obtain ⟨st', hst', hv⟩ := (hagreed i d (hsame.symm.trans hd)).1 j hj
      obtain rfl : st = st' := Option.some.inj (hst.symm.trans hst')
      exact hv.symm.trans hw
    · exact Option.some.inj (hd.symm.trans hnew)
  intro i d hd
  obtain rfl := hcarried i d hd
  refine ⟨fun j hj => ?_, fun j e he => hcarried j e he⟩
  rw [h.live] at hj
  obtain ⟨st, st', -, hst', hv, -⟩ := h.settled j hj
  exact ⟨st', hst', hv⟩

/-- **Agreement** when no replica comes back. -/
theorem Trail.agreed (h : Trail back c rs c') (hback : ∀ i, ¬back i) (hagreed : Agreed c) : Agreed c' := by
  induction h with
  | nil => exact hagreed
  | fault hf _ ih =>
    apply ih
    intro i d hd
    rw [hf.decided] at hd
    obtain ⟨hlive, hall⟩ := hagreed i d hd
    refine ⟨fun j hj => ?_, fun j e he => hall j e (by rw [← hf.decided]; exact he)⟩
    rw [hf.state]
    exact hlive j ((hf.live j hj).resolve_right (hback j))
  | round _ hc _ ih => exact ih (hc.agreed hagreed)

/-! ## The driver's runs -/

section Driver

variable (scheduler : Sim.Envelope (ProposalSet V) → SchedulerCtx → Decision) (rng : ℕ → UInt64)

/-- a fault leaves the kernel idle -/
theorem Idle.fault {live live' : List NodeId} {k : Net V} (h : Idle live k) (hn : Link V) (cmd : FaultCommand)
    (hquiet : (k.applyFaultCommand hn cmd).halted = k.halted ∧ (k.applyFaultCommand hn cmd).queue = k.queue ∧
      (k.applyFaultCommand hn cmd).inFlight = k.inFlight)
    (hup : ∀ i ∈ live', (k.applyFaultCommand hn cmd).faults.isCrashed i = false ∧
      ((k.applyFaultCommand hn cmd).nodes i).isSome) : Idle live' (k.applyFaultCommand hn cmd) where
  sound := applyFaultCommand_sound h.sound hn cmd
  running := hquiet.1.trans h.running
  empty := hquiet.2.1.trans h.empty
  quiet := fun id => by rw [hquiet.2.2]; exact h.quiet id
  up := hup

theorem crash_faulted (hn : Link V) (id : NodeId) (c : Cluster V) : Faulted back c (c.crash hn id) :=
  ⟨rfl, rfl, fun _ hi => .inl (List.mem_of_mem_erase hi)⟩

theorem Standing.crash (h : Standing c) (hn : Link V) (id : NodeId) : Standing (c.crash hn id) where
  idle := h.idle.fault hn (.crash id) ⟨rfl, rfl, rfl⟩ fun i hi => by
    have hmem := h.distinct.mem_erase_iff.1 hi
    obtain ⟨hup, hnd⟩ := h.idle.up i hmem.2
    refine ⟨?_, hnd⟩
    show decide (i ∈ insert id c.kernel.faults.crashed) = false
    unfold FaultState.isCrashed at hup
    simpa [hmem.1] using hup
  distinct := h.distinct.erase id
  known := fun i hi => h.known i (List.mem_of_mem_erase hi)
  hosted := h.hosted

theorem restart_faulted (hn : Link V) {id : NodeId} (hid : back id) (c : Cluster V) :
    Faulted back c (c.restart hn id) := by
  refine ⟨rfl, rfl, fun i hi => ?_⟩
  unfold Cluster.restart at hi
  dsimp only at hi
  split_ifs at hi
  · exact .inl hi
  · rcases (List.mem_orderedInsert _).1 hi with rfl | hi
    · exact .inr hid
    · exact .inl hi

theorem restart_kernel {k : Net V} {id : NodeId} (hid : (k.nodes id).isSome) :
    ((k.applyFaultCommand (link scheduler rng) (.restart id)).halted = k.halted ∧
      (k.applyFaultCommand (link scheduler rng) (.restart id)).queue = k.queue ∧
      (k.applyFaultCommand (link scheduler rng) (.restart id)).inFlight = k.inFlight) ∧
    (k.applyFaultCommand (link scheduler rng) (.restart id)).faults = k.faults.restart id ∧
    (k.applyFaultCommand (link scheduler rng) (.restart id)).nodes = Function.update k.nodes id (some .new) := by
  obtain ⟨nd, hnd⟩ := Option.isSome_iff_exists.1 hid
  dsimp only [Kernel.applyFaultCommand, Kernel.record]
  rw [hnd]
  exact ⟨⟨rfl, rfl, rfl⟩, rfl, rfl⟩

theorem Standing.restart (h : Standing c) {id : NodeId} (hid : (c.state id).isSome) :
    Standing (c.restart (link scheduler rng) id) := by
  obtain ⟨hquiet, hfaults, hnodes⟩ := restart_kernel scheduler rng (h.hosted id hid)
  have hlive : ∀ i ∈ (c.restart (link scheduler rng) id).live, i = id ∨ i ∈ c.live := by
    intro i hi
    unfold Cluster.restart at hi
    dsimp only at hi
    split_ifs at hi
    · exact .inr hi
    · exact (List.mem_orderedInsert _).1 hi
  have hhosted : ∀ i, (c.kernel.nodes i).isSome →
      ((c.restart (link scheduler rng) id).kernel.nodes i).isSome := by
    intro i hi
    unfold Cluster.restart
    dsimp only
    rw [hnodes]
    by_cases heq : i = id
    · rw [heq, Function.update_self]
      rfl
    · rw [Function.update_of_ne heq]
      exact hi
  refine
    { idle := h.idle.fault _ (.restart id) hquiet fun i hi => ⟨?_, ?_⟩
      distinct := ?_
      known := fun i hi => ?_
      hosted := fun i hi => hhosted i (h.hosted i hi) }
  · rw [hfaults]
    rcases hlive i hi with rfl | hi
    · simp [FaultState.isCrashed, FaultState.restart]
    · have hup := (h.idle.up i hi).1
      unfold FaultState.isCrashed at hup ⊢
      unfold FaultState.restart
      dsimp only
      rw [decide_eq_false_iff_not] at hup ⊢
      exact fun hmem => hup (Finset.mem_of_mem_erase hmem)
  · rcases hlive i hi with rfl | hi
    · exact hhosted i (h.hosted i hid)
    · exact hhosted i (h.idle.up i hi).2
  · unfold Cluster.restart
    dsimp only
    split_ifs with hmem
    · exact h.distinct
    · exact (List.perm_orderedInsert _ _ _).nodup_iff.2 (List.nodup_cons.2 ⟨hmem, h.distinct⟩)
  · rcases hlive i hi with rfl | hi
    · exact hid
    · exact h.known i hi

theorem Standing.cut (h : Standing c) (hn : Link V) (groupA groupB : Finset NodeId) :
    Standing (c.partition hn groupA groupB) where
  idle := h.idle.fault hn (.partition groupA groupB) ⟨rfl, rfl, rfl⟩ h.idle.up
  distinct := h.distinct
  known := h.known
  hosted := h.hosted

theorem Standing.heal (h : Standing c) (hn : Link V) : Standing (c.heal hn) where
  idle := h.idle.fault hn .heal ⟨rfl, rfl, rfl⟩ h.idle.up
  distinct := h.distinct
  known := h.known
  hosted := h.hosted

theorem standing_new (initialValues : AList fun _ : NodeId => V) : Standing (Cluster.new initialValues) := by
  have hlive : ∀ i, i ∈ (Cluster.new initialValues).live ↔ (initialValues.lookup i).isSome := fun i =>
    (List.mem_insertionSort _).trans AList.lookup_isSome.symm
  have hnodes : ∀ i, ((Cluster.new initialValues).kernel.nodes i).isSome = (initialValues.lookup i).isSome := fun i =>
    Option.isSome_map
  refine
    { idle :=
        { sound := (sound_new ()).frame _ () none none
          running := rfl
          empty := rfl
          quiet := fun _ => rfl
          up := fun i hi => ⟨rfl, by rw [hnodes]; exact (hlive i).1 hi⟩ }
      distinct := (List.perm_insertionSort _ _).nodup_iff.2 (AList.keys_nodup _)
      known := fun i hi => ?_
      hosted := fun i hi => ?_ }
  · exact Option.isSome_map.trans ((hlive i).1 hi)
  · rw [hnodes]
    exact Option.isSome_map.symm.trans hi

/-- every value of a new cluster is an initial value -/
theorem genuine_new (initialValues : AList fun _ : NodeId => V) :
    Genuine (fun v => ∃ j, initialValues.lookup j = some v) (Cluster.new initialValues) := by
  intro i st hst
  obtain ⟨v, hv, rfl⟩ := Option.map_eq_some_iff.1 hst
  exact ⟨⟨i, hv⟩, fun d hd => by cases hd⟩

theorem decided_new (initialValues : AList fun _ : NodeId => V) (i : NodeId) :
    (Cluster.new initialValues).decided i = none := by
  unfold Cluster.decided Cluster.new
  dsimp only
  cases initialValues.lookup i <;> rfl

theorem replicas_new (initialValues : AList fun _ : NodeId => V) :
    (Cluster.new initialValues).replicas.length = initialValues.keys.length :=
  List.length_insertionSort ..

variable [LinearOrder V]

theorem runRound_trail (back : NodeId → Prop) (h : Standing c) (hr : c.runRound (link scheduler rng) = .ok (r, c')) :
    Trail back c [r] c' ∧ Standing c' := by
  rcases runRound_cases scheduler rng h with
    ⟨-, hfail⟩ | ⟨-, hfail | ⟨r', c'', w, hok, hmeets, hconcludes, hstanding⟩⟩
  · rw [hfail] at hr
    cases hr
  · rw [hfail] at hr
    cases hr
  · rw [hok] at hr
    obtain ⟨rfl, rfl⟩ := Prod.mk.inj (Except.ok.inj hr)
    exact ⟨.round hmeets hconcludes (.nil _), hstanding⟩

theorem runSlot_trail (maxRounds : ℕ) (h : Standing c) (hr : c.runSlot (link scheduler rng) maxRounds = .ok (rs, c')) :
    Trail back c rs c' ∧ Standing c' := by
  induction maxRounds generalizing c rs with
  | zero =>
    obtain ⟨rfl, rfl⟩ := Prod.mk.inj (Except.ok.inj hr)
    exact ⟨.nil _, h⟩
  | succ maxRounds ih =>
    unfold Cluster.runSlot at hr
    split_ifs at hr
    · obtain ⟨rfl, rfl⟩ := Prod.mk.inj (Except.ok.inj hr)
      exact ⟨.nil _, h⟩
    · split at hr
      · cases hr
      · next r c₁ hround =>
        obtain ⟨hfirst, hstanding⟩ := runRound_trail scheduler rng back h hround
        split at hr
        · cases hr
        · next rs' c₂ hrest =>
          obtain ⟨rfl, rfl⟩ := Prod.mk.inj (Except.ok.inj hr)
          obtain ⟨htrail, hstanding'⟩ := ih hstanding hrest
          exact ⟨hfirst.append htrail, hstanding'⟩

/-- one call of the driver -/
theorem step_trail {op : ClusterOp} (h : Standing c) (hback : ∀ i, op = .restart i → back i ∧ (c.state i).isSome)
    (hr : c.step (link scheduler rng) op = .ok (rs, c')) : Trail back c rs c' ∧ Standing c' := by
  cases op with
  | crash id =>
    obtain ⟨rfl, rfl⟩ := Prod.mk.inj (Except.ok.inj hr)
    exact ⟨.fault (crash_faulted _ id c) (.nil _), h.crash _ id⟩
  | restart id =>
    obtain ⟨rfl, rfl⟩ := Prod.mk.inj (Except.ok.inj hr)
    exact ⟨.fault (restart_faulted _ (hback id rfl).1 c) (.nil _), h.restart scheduler rng (hback id rfl).2⟩
  | partition groupA groupB =>
    obtain ⟨rfl, rfl⟩ := Prod.mk.inj (Except.ok.inj hr)
    have hcut : Faulted back c (c.partition (link scheduler rng) groupA groupB) := ⟨rfl, rfl, fun _ hi => .inl hi⟩
    exact ⟨.fault hcut (.nil _), h.cut _ groupA groupB⟩
  | heal =>
    obtain ⟨rfl, rfl⟩ := Prod.mk.inj (Except.ok.inj hr)
    have hhealed : Faulted back c (c.heal (link scheduler rng)) := ⟨rfl, rfl, fun _ hi => .inl hi⟩
    exact ⟨.fault hhealed (.nil _), h.heal _⟩
  | runRound =>
    unfold Cluster.step at hr
    dsimp only at hr
    split at hr
    · cases hr
    · next r c₁ hround =>
      obtain ⟨rfl, rfl⟩ := Prod.mk.inj (Except.ok.inj hr)
      exact runRound_trail scheduler rng back h hround
  | runSlot maxRounds => exact runSlot_trail scheduler rng maxRounds h hr

/-- **The driver's runs are trails**: what holds of the rounds' contracts holds of the code. -/
theorem drive_trail {ops : List ClusterOp} (h : Standing c) (hback : ∀ id, .restart id ∈ ops → back id)
    (hknown : ∀ id, back id → (c.state id).isSome) (hr : c.drive (link scheduler rng) ops = .ok (rs, c')) :
    Trail back c rs c' ∧ Standing c' := by
  induction ops generalizing c rs with
  | nil =>
    obtain ⟨rfl, rfl⟩ := Prod.mk.inj (Except.ok.inj hr)
    exact ⟨.nil _, h⟩
  | cons op ops ih =>
    unfold Cluster.drive at hr
    split at hr
    · cases hr
    · next rs₁ c₁ hstep =>
      obtain ⟨hfirst, hstanding⟩ := step_trail scheduler rng h
        (fun i hi => ⟨hback i (hi ▸ List.mem_cons_self), hknown i (hback i (hi ▸ List.mem_cons_self))⟩) hstep
      split at hr
      · cases hr
      · next rs₂ c₂ hrest =>
        obtain ⟨rfl, rfl⟩ := Prod.mk.inj (Except.ok.inj hr)
        obtain ⟨htrail, hstanding'⟩ := ih hstanding (fun id hid => hback id (List.mem_cons_of_mem _ hid))
          (fun id hid => by rw [hfirst.state_isSome]; exact hknown id hid) hrest
        exact ⟨hfirst.append htrail, hstanding'⟩

/-- **Algorithm 1 over `tcast`**, for every cluster, every scheduler, all draws and every run of the driver that does not
panic: each call of `tcast` meets its contract and `U ⊆ C_j ⊆ E_i` in each round; a replica decides in one round at most
and its decision stays; it is some replica's initial value; and when no replica comes back, all decisions are equal. From
there a round with a live majority returns or exhausts the retries of a call. -/
theorem algorithm_one_agrees (initialValues : AList fun _ : NodeId => V) (ops : List ClusterOp)
    (hback : ∀ id, .restart id ∈ ops → id ∈ initialValues) {rs : List (Round V)} {c : Cluster V}
    (hr : (Cluster.new initialValues).drive (link scheduler rng) ops = .ok (rs, c)) :
    (∀ r ∈ rs, r.Meets initialValues.keys.length ∧ ∀ i ∈ r.live, ∀ j ∈ r.live,
      ∃ C E, r.call3.r j = some C ∧ r.call2.r i = some E ∧ r.call3.b ⊆ C ∧ C ⊆ E) ∧
    (rs.Pairwise fun r r' => r.newlyDecided.Disjoint r'.newlyDecided) ∧
    (∀ i, (c.decided i).isSome ↔ ∃ r ∈ rs, i ∈ r.newlyDecided) ∧
    (∀ i d, c.decided i = some d → ∀ more, (∀ id, .restart id ∈ more → id ∈ initialValues) → ∀ rs' c',
      c.drive (link scheduler rng) more = .ok (rs', c') → c'.decided i = some d) ∧
    (∀ i d, c.decided i = some d → ∃ j, initialValues.lookup j = some d) ∧
    ((∀ id, .restart id ∉ ops) → ∀ i j d e, c.decided i = some d → c.decided j = some e → d = e) ∧
    (initialValues.keys.length < 2 * c.live.length → (∃ r c', c.runRound (link scheduler rng) = .ok (r, c')) ∨
      c.runRound (link scheduler rng) = .error (.tcast .notConverged)) := by
  have hknown : ∀ id, id ∈ initialValues → ((Cluster.new initialValues).state id).isSome := fun id hid =>
    Option.isSome_map.trans (AList.lookup_isSome.2 hid)
  obtain ⟨htrail, hstanding⟩ := drive_trail scheduler rng (standing_new initialValues) hback hknown hr
  have hn : c.replicas.length = initialValues.keys.length := by rw [htrail.replicas, replicas_new]
  refine ⟨fun r hmem => ?_, htrail.decides_once, fun i => ?_, fun i d hd more hmore rs' c' hr' => ?_, fun i d hd => ?_,
    fun hnone i j d e hd he => ?_, fun hmajority => ?_⟩
  · have hmeets : r.Meets initialValues.keys.length := by
      rw [← replicas_new]
      exact htrail.meets r hmem
    exact ⟨hmeets, fun i hi j hj => hmeets.crux hi hj⟩
  · rw [htrail.decided_iff, decided_new]
    simp
  · obtain ⟨hrest, -⟩ := drive_trail scheduler rng hstanding hmore
      (fun id hid => by rw [htrail.state_isSome]; exact hknown id hid) hr'
    exact (hrest.decided_stays hd).1
  · have hgenuine := htrail.genuine (genuine_new initialValues)
    unfold Cluster.decided at hd
    obtain ⟨st, hst, hdec⟩ := Option.bind_eq_some_iff.1 hd
    exact (hgenuine i st hst).2 d hdec
  · obtain ⟨hstop, -⟩ := drive_trail scheduler rng (standing_new initialValues) hnone (fun _ => False.elim) hr
    have hagreed : Agreed c := hstop.agreed (fun _ => id) fun i d hd => by rw [decided_new] at hd; cases hd
    exact (hagreed j e he).2 i d hd
  · rcases runRound_cases scheduler rng hstanding with
      ⟨hless, -⟩ | ⟨-, hfail | ⟨r, c', w, hok, -⟩⟩
    · omega
    · exact .inr hfail
    · exact .inl ⟨r, c', hok⟩

/-- three replicas: what the third sends is lost at first, so it decides only in the second round, after a crash -/
theorem algorithm_one_agrees_late :
    ∃ rs c, (Cluster.new (((∅ : AList fun _ : NodeId => ℕ).insert 0 10).insert 1 11 |>.insert 2 12)).drive
      (link (fun e _ => if e.info.src = 2 ∧ e.info.id < 20 then .drop else .deliver (1 + e.info.id % 5)) UInt64.ofNat)
      [.runRound, .crash 1, .runSlot 4] = .ok (rs, c) ∧
      rs.map (·.newlyDecided) = [[0, 1], [2]] ∧ c.decided 2 = some 11 ∧
      ∀ i j d e, c.decided i = some d → c.decided j = some e → d = e := by
  have hrun : (match (Cluster.new (((∅ : AList fun _ : NodeId => ℕ).insert 0 10).insert 1 11 |>.insert 2 12)).drive
      (link (fun e _ => if e.info.src = 2 ∧ e.info.id < 20 then .drop else .deliver (1 + e.info.id % 5)) UInt64.ofNat)
      [.runRound, .crash 1, .runSlot 4] with
      | .error _ => false
      | .ok (rs, c) => decide (rs.map (·.newlyDecided) = [[0, 1], [2]] ∧ c.decided 2 = some 11)) = true := by
    decide +kernel
  split at hrun
  · cases hrun
  · next rs c hok =>
    obtain ⟨hrounds, hdec⟩ := of_decide_eq_true hrun
    have hnone : ∀ id, ClusterOp.restart id ∉ [.runRound, .crash 1, .runSlot 4] := by simp
    exact ⟨rs, c, hok, hrounds, hdec,
      (algorithm_one_agrees _ _ _ _ (fun id hid => absurd hid (hnone id)) hok).2.2.2.2.2.1 hnone⟩

end Driver

end Queso.Algorithm
