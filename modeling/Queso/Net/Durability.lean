/-
Write before reply: what a process ever released is on its disk, and stays there.

Between batches the replica's durable state is the one on disk, or the initial one while the disk has none, and only a
batch with a message can change it: that batch persists first and releases after.

- `dispatch_ready`: one event keeps the replica's books, and lets its durable state grow.
- `sound_step`: every boot, batch, fault and kill keeps what was released on disk.
- `write_before_reply`: over all runs, a boot finds the durable state of the last batch whose snapshot was put in place;
  whatever acknowledges anything is held by the snapshot on disk when it is released and ever after; and a batch that
  cannot persist releases nothing.
-/
import Queso.Net.Books

namespace Queso.Net

/-! ## One event, one batch -/

/-- a process between two events: its replica's books are kept, and what waits to be sent is durable in memory -/
structure Ready (r : Running) : Prop where
  books : Books r.node r.shared r.nextOpId
  holds : Holds r.node.durable (r.pendingOutbound.map .sent)

section Events

variable {cfg : Config} {r r' : Running}

theorem Running.absorb_ok {out : SmrOutcome} (hr : r.absorb cfg out = .ok r') :
    ∃ nd sh fx, out = .ok (nd, sh, fx) ∧ r'.nextOpId = r.nextOpId := by
  cases out with
  | error e => exact absurd hr (by simp [Running.absorb])
  | ok called =>
    obtain rfl := Except.ok.inj hr
    exact ⟨called.1, called.2.1, called.2.2, rfl, rfl⟩

/-- taking over a call that keeps the books; a submission moved the next operation on before the call -/
theorem Booked.absorb {out : SmrOutcome} {nd' : SmrNode} {sh' : Shared} {fx : List (Effect SmrMsg)}
    (hr : r.absorb cfg out = .ok r') (ho : out = .ok (nd', sh', fx)) (hb : Booked r.node nd' sh' fx r'.nextOpId)
    (hlawful : Lawful r.node.durable) (hholds : Holds r.node.durable (r.pendingOutbound.map .sent)) :
    Ready r' ∧ r'.node = nd' ∧ Grows r.node.durable r'.node.durable := by
  subst ho
  obtain rfl := Except.ok.inj hr
  refine ⟨⟨hb.books, ?_⟩, rfl, hb.grows⟩
  rw [List.map_append]
  exact (hholds.mono hlawful hb.books.lawful hb.grows).append (hb.holds cfg.id)

/-- **One event keeps the replica's books.** Its durable state grows, and only a message makes it. -/
theorem dispatch_ready {d : Dispatch} (h : Ready r) (hd : r.dispatch cfg d = .ok r') :
    Ready r' ∧ Grows r.node.durable r'.node.durable ∧
      (d.event.mayMutateDurable = false → r'.node.durable = r.node.durable) := by
  unfold Running.dispatch at hd
  dsimp only at hd
  cases he : d.event with
  | message src payload =>
    rw [he] at hd
    dsimp only at hd
    obtain ⟨nd', sh', fx, ho, hnext⟩ := Running.absorb_ok hd
    obtain ⟨hready, -, hgrows⟩ := Booked.absorb hd ho (hnext ▸ h.books.onMessage ho) h.books.lawful h.holds
    exact ⟨hready, hgrows, fun hno => absurd hno (by simp [Event.mayMutateDurable])⟩
  | timer id =>
    rw [he] at hd
    dsimp only at hd
    obtain ⟨nd', sh', fx, ho, hnext⟩ := Running.absorb_ok hd
    obtain ⟨hbooks, hdur, hmute⟩ := h.books.onTimer ho
    have hbooked : Booked r.node nd' sh' fx r'.nextOpId := hnext ▸ .of_mute hbooks hdur hmute
    obtain ⟨hready, hnode, hgrows⟩ := Booked.absorb hd ho hbooked h.books.lawful h.holds
    exact ⟨hready, hgrows, fun _ => hnode ▸ hdur⟩
  | clientSubmit command =>
    rw [he] at hd
    dsimp only at hd
    obtain ⟨nd', sh', fx, ho, hnext⟩ := Running.absorb_ok hd
    obtain ⟨hbooks, hdur, hmute⟩ := h.books.submit ho
    have hbooked : Booked r.node nd' sh' fx r'.nextOpId := hnext ▸ .of_mute hbooks hdur hmute
    obtain ⟨hready, hnode, hgrows⟩ := Booked.absorb hd ho hbooked h.books.lawful h.holds
    exact ⟨hready, hgrows, fun _ => hnode ▸ hdur⟩

theorem applyBatch_ready {events : List Dispatch} (h : Ready r) (hr : r.applyBatch cfg events = .ok r') :
    Ready r' ∧ Grows r.node.durable r'.node.durable ∧
      ((events.any fun d => d.event.mayMutateDurable) = false → r'.node.durable = r.node.durable) := by
  induction events generalizing r with
  | nil =>
    obtain rfl := Except.ok.inj hr
    exact ⟨h, .refl _, fun _ => rfl⟩
  | cons d ds ih =>
    rw [Running.applyBatch] at hr
    cases hd : r.dispatch cfg d with
    | error e => rw [hd] at hr; exact absurd hr (by simp)
    | ok r₁ =>
      rw [hd] at hr
      obtain ⟨hready, hgrows, hsame⟩ := dispatch_ready h hd
      obtain ⟨hready', hgrows', hsame'⟩ := ih hready hr
      refine ⟨hready', hgrows.trans hgrows', fun hno => ?_⟩
      rw [List.any_cons, Bool.or_eq_false_iff] at hno
      exact (hsame' hno.2).trans (hsame hno.1)

/-- an answer is the outcome of an applied slot -/
theorem Ready.answers (h : Ready r) : Holds r.node.durable r.answers := by
  intro rel hrel _
  obtain ⟨id, -, hid⟩ := List.mem_filterMap.1 hrel
  obtain ⟨record, hrecord, rfl⟩ := Option.map_eq_some_iff.1 hid
  obtain ⟨hlookup, hsome⟩ := Option.filter_eq_some_iff.1 hrecord
  exact .outcome (h.books.applied id record hlookup (Option.isSome_iff_ne_none.1 hsome))

/-- what is left once a batch was released -/
theorem Ready.settled (h : Ready r) : Ready r.settled :=
  ⟨h.books, fun _ hrel => absurd hrel List.not_mem_nil⟩

theorem Ready.flushed (h : Ready r) : Holds r.node.durable (r.flushed cfg) :=
  h.holds.subset (List.map_subset _ List.filter_sublist.subset)

end Events

/-! ## The disk backs what was released -/

/-- the last snapshot that was put in place -/
def lastLanded (saves : List Save) : Option (Durable × ℕ) :=
  ((saves.filter fun s => s.ending.landed).getLast?).map fun s => (s.durable, s.tick)

/-- the durable state that a boot starts from -/
def onDisk (saves : List Save) : Durable := ((lastLanded saves).map Prod.fst).getD .default

theorem lastLanded_snoc (saves : List Save) (s : Save) :
    lastLanded (saves ++ [s]) = if s.ending.landed then some (s.durable, s.tick) else lastLanded saves := by
  unfold lastLanded
  rw [List.filter_append]
  split_ifs with hl
  · simp [hl]
  · simp [hl]

/-- the snapshot on disk is the last one put in place, it is what a live replica has in memory, and it holds whatever
was acknowledged -/
structure Sound (b : Bincode) (p : Process) : Prop where
  loads : load b p.disk = .ok (lastLanded p.saves)
  lawful : Lawful (onDisk p.saves)
  released : Holds (onDisk p.saves) p.released
  running : ∀ r, p.running = some r → Ready r ∧ r.node.durable = onDisk p.saves ∧ r.pendingOutbound = []

/-- a snapshot of a durable state that continues the one on disk -/
theorem Sound.saved {b : Bincode} {p : Process} (hb : b.RoundTrips) (h : Sound b p) {d : Durable} (hd : Lawful d)
    (hg : Grows (onDisk p.saves) d) (fault : Option DiskFault) (kill : Option WriteKill) (tick : ℕ) :
    let w := persist b fault kill p.disk d tick
    let saves := p.saves ++ [⟨d, tick, w.ending⟩]
    Sound b { p with disk := w.disk, saves := saves, running := none } ∧ Grows (onDisk p.saves) (onDisk saves) ∧
      (w.ending.landed → onDisk saves = d) := by
  intro w saves
  have hlast : lastLanded saves = if w.ending.landed then some (d, tick) else lastLanded p.saves := lastLanded_snoc _ _
  have hload : load b w.disk = .ok (lastLanded saves) := by
    rw [load_persist hb, hlast, h.loads]
    split_ifs <;> rfl
  by_cases hl : w.ending.landed
  · have hdisk : onDisk saves = d := by rw [onDisk, hlast, if_pos hl]; rfl
    exact ⟨⟨hload, hdisk ▸ hd, hdisk ▸ h.released.mono h.lawful hd hg, by simp⟩, hdisk ▸ hg, fun _ => hdisk⟩
  · have hdisk : onDisk saves = onDisk p.saves := by rw [onDisk, hlast, if_neg hl]; rfl
    exact ⟨⟨hload, hdisk ▸ h.lawful, hdisk ▸ h.released, by simp⟩, hdisk ▸ .refl _, fun hl' => absurd hl' hl⟩

/-- releasing what the disk holds -/
theorem Sound.release {b : Bincode} {p : Process} (h : Sound b p) {r : Running}
    {releases : List Release} (hr : Ready r) (hd : r.node.durable = onDisk p.saves) (hp : r.pendingOutbound = [])
    (hh : Holds r.node.durable releases) (kill : Option ℕ) : Sound b (p.release r releases kill) := by
  rw [hd] at hh
  cases kill with
  | none =>
    refine ⟨h.loads, h.lawful, h.released.append hh, fun r' hr' => ?_⟩
    obtain rfl := Option.some.inj hr'
    exact ⟨hr, hd, hp⟩
  | some n => exact ⟨h.loads, h.lawful, h.released.append (hh.subset (List.take_subset n _)), by simp [Process.release]⟩

theorem Sound.killed {b : Bincode} {p : Process} (h : Sound b p) : Sound b { p with running := none } :=
  ⟨h.loads, h.lawful, h.released, by simp⟩

theorem sound_blank (b : Bincode) : Sound b .blank :=
  ⟨rfl, lawful_default, fun _ hrel => absurd hrel (by simp [Process.blank]), fun _ hr => absurd hr (by simp [Process.blank])⟩

/-- a replica that has just been built -/
theorem ready_boot (cfg : Config) (fault : Option DiskFault) {d : Durable} (hd : Lawful d) (baseline : ℕ) :
    Ready (.boot cfg fault d baseline) where
  books :=
    { lawful := hd
      known := fun id r hr => absurd hr (by simp [Running.boot])
      applied := fun id r hr => absurd hr (by simp [Running.boot])
      queued := fun o ho => absurd ho (by simp [Running.boot, SmrNode.new])
      frontier := fun a ha => absurd ha (by simp [Running.boot, SmrNode.new])
      flying := fun a id ha => absurd ha (by simp [Running.boot, SmrNode.new]) }
  holds := fun _ hrel => absurd hrel (by simp [Running.boot])

section Steps

variable {b : Bincode} {p : Process} (cfg : Config)

theorem Sound.bootFrom (h : Sound b p) (fault : Option DiskFault) (elapsed : ℕ) (rng : NodeId → Draw)
    (kill : Option ℕ) :
    Sound b (p.bootFrom b cfg fault elapsed rng kill) ∧ (p.bootFrom b cfg fault elapsed rng kill).saves = p.saves := by
  unfold Process.bootFrom
  rw [h.loads]
  cases hl : lastLanded p.saves with
  | none =>
    -- a cold boot: nothing is on disk
    have hdisk : onDisk p.saves = .default := by rw [onDisk, hl]; rfl
    refine ⟨⟨h.loads, h.lawful, h.released, fun r hr => ?_⟩, rfl⟩
    obtain rfl := Option.some.inj hr
    exact ⟨ready_boot cfg fault lawful_default 0, hdisk.symm, rfl⟩
  | some snapshot =>
    obtain ⟨durable, maxTick⟩ := snapshot
    have hdisk : onDisk p.saves = durable := by rw [onDisk, hl]; rfl
    dsimp only
    split
    · exact ⟨h, rfl⟩
    · rename_i r hr
      have hboot : Ready (.boot cfg fault durable maxTick) := ready_boot cfg fault (hdisk ▸ h.lawful) maxTick
      obtain ⟨nd', sh', fx, ho, hnext⟩ := Running.absorb_ok hr
      obtain ⟨hbooks, hdur, hmute⟩ := hboot.books.onRestart ho
      have hbooked : Booked (Running.boot cfg fault durable maxTick).node nd' sh' fx r.nextOpId :=
        hnext ▸ .of_mute hbooks hdur hmute
      obtain ⟨hready, hnode, -⟩ := Booked.absorb hr ho hbooked hboot.books.lawful hboot.holds
      have hsame : r.node.durable = onDisk p.saves := by rw [hnode, hdur, hdisk]; rfl
      have hsent : Ready { r with pendingOutbound := [] } :=
        ⟨hready.books, fun _ hrel => absurd hrel List.not_mem_nil⟩
      exact ⟨h.release hsent hsame rfl hready.flushed kill, by cases kill <;> rfl⟩

theorem Sound.runBatch (hb : b.RoundTrips) (h : Sound b p) {r : Running} (hr : p.running = some r)
    (events : List Dispatch) (kill : Option Kill) :
    Sound b (p.runBatch b cfg r events kill) ∧
      Grows (onDisk p.saves) (onDisk (p.runBatch b cfg r events kill).saves) := by
  obtain ⟨hready, hsame, -⟩ := h.running r hr
  unfold Process.runBatch
  cases ha : r.applyBatch cfg events with
  | error e => exact ⟨h.killed, .refl _⟩
  | ok r' =>
    obtain ⟨hready', hgrows, hkeeps⟩ := applyBatch_ready hready ha
    rw [hsame] at hgrows hkeeps
    dsimp only
    split_ifs with hk hdone
    · exact ⟨h.killed, .refl _⟩
    · unfold Process.persisted at hdone ⊢
      split_ifs at hdone ⊢ with hmsg
      · -- the snapshot was written whole: what is released is on disk
        obtain ⟨hsound, hg, hin⟩ := h.saved hb hready'.books.lawful hgrows r'.fault (kill.bind Kill.write) r'.now
        have hlanded : (persist b r'.fault (kill.bind Kill.write) p.disk r'.node.durable r'.now).ending.landed = true := by
          rw [of_decide_eq_true hdone]
          rfl
        have hrefault : Ready { r' with fault := (persist b r'.fault (kill.bind Kill.write) p.disk r'.node.durable
          r'.now).fault } := ⟨hready'.books, hready'.holds⟩
        refine ⟨hsound.release hrefault.settled (hin hlanded).symm rfl ?_ _, ?_⟩
        · exact hrefault.flushed.append hrefault.answers
        · cases kill.bind Kill.release <;> exact hg
      · -- nothing durable changed
        have hdur : r'.node.durable = onDisk p.saves := hkeeps (Bool.eq_false_iff.2 hmsg)
        refine ⟨h.release hready'.settled hdur rfl ?_ _, ?_⟩
        · exact hready'.flushed.append hready'.answers
        · cases kill.bind Kill.release <;> exact .refl _
    · unfold Process.persisted at hdone ⊢
      split_ifs at hdone ⊢ with hmsg
      · obtain ⟨hsound, hg, -⟩ := h.saved hb hready'.books.lawful hgrows r'.fault (kill.bind Kill.write) r'.now
        exact ⟨hsound, hg⟩
      · exact absurd rfl hdone

/-- **Every step keeps what was released on disk**, and lets the durable state on disk grow -/
theorem sound_step (hb : b.RoundTrips) (h : Sound b p) (op : ProcOp) :
    Sound b (p.step b cfg op) ∧ Grows (onDisk p.saves) (onDisk (p.step b cfg op).saves) := by
  cases op with
  | boot fault elapsed rng kill =>
    unfold Process.step
    dsimp only
    split_ifs with hup
    · exact ⟨h, .refl _⟩
    · obtain ⟨hsound, hsaves⟩ := h.bootFrom cfg fault elapsed rng kill
      exact ⟨hsound, by rw [hsaves]; exact .refl _⟩
  | batch first ready kill =>
    unfold Process.step
    cases hr : p.running with
    | none => exact ⟨h, .refl _⟩
    | some r => exact h.runBatch cfg hb hr _ kill
  | kill => exact ⟨h.killed, .refl _⟩

theorem sound_run (hb : b.RoundTrips) (h : Sound b p) (ops : List ProcOp) :
    Sound b (p.run b cfg ops) ∧ Grows (onDisk p.saves) (onDisk (p.run b cfg ops).saves) := by
  induction ops generalizing p with
  | nil => exact ⟨h, .refl _⟩
  | cons op ops ih =>
    obtain ⟨hsound, hgrows⟩ := sound_step cfg hb h op
    obtain ⟨hsound', hgrows'⟩ := ih hsound
    exact ⟨hsound', hgrows.trans hgrows'⟩

/-- **Only a batch persists, and what it has in memory.** If it cannot, it releases nothing and the process ends. -/
theorem step_saves (b : Bincode) (p : Process) (op : ProcOp) :
    (p.step b cfg op).saves = p.saves ∨
      ∃ first ready kill r r' ending, op = .batch first ready kill ∧ p.running = some r ∧
        r.applyBatch cfg (Process.batchOf first ready) = .ok r' ∧
        (p.step b cfg op).saves = p.saves ++ [⟨r'.node.durable, r'.now, ending⟩] ∧
        (ending ≠ .done → (p.step b cfg op).released = p.released ∧ (p.step b cfg op).running = none) := by
  cases op with
  | boot fault elapsed rng kill =>
    left
    unfold Process.step Process.bootFrom
    dsimp only
    split_ifs
    · rfl
    split
    · rfl
    · rfl
    · split
      · rfl
      · cases kill <;> rfl
  | kill => exact .inl rfl
  | batch first ready kill =>
    unfold Process.step
    dsimp only
    cases hr : p.running with
    | none => exact .inl rfl
    | some r =>
      dsimp only
      unfold Process.runBatch
      cases ha : r.applyBatch cfg (Process.batchOf first ready) with
      | error e => exact .inl rfl
      | ok r' =>
        dsimp only
        split_ifs with hk hdone
        · exact .inl rfl
        · unfold Process.persisted at hdone ⊢
          split_ifs at hdone ⊢ with hmsg
          · refine .inr ⟨first, ready, kill, r, r', _, rfl, rfl, ha, by cases kill.bind Kill.release <;> rfl, ?_⟩
            exact fun hne => absurd (of_decide_eq_true hdone) hne
          · left
            cases kill.bind Kill.release <;> rfl
        · unfold Process.persisted at hdone ⊢
          split_ifs at hdone ⊢ with hmsg
          · exact .inr ⟨first, ready, kill, r, r', _, rfl, rfl, ha, rfl, fun _ => ⟨rfl, rfl⟩⟩
          · exact absurd rfl hdone

end Steps

/-- **Write before reply.** After any boots, batches, disk faults and kills:
- a boot finds the last snapshot that was put in place, which is also what a live replica has in memory;
- only a batch adds a snapshot, the durable state it has in memory, and if that is not persisted it releases nothing;
- a recorder's answer and a client's outcome are held by the snapshot on disk from their release on. -/
theorem write_before_reply {b : Bincode} (hb : b.RoundTrips) (cfg : Config) (ops : List ProcOp) :
    let p := Process.run b cfg .blank ops
    load b p.disk = .ok (lastLanded p.saves) ∧
      (∀ r, p.running = some r → r.node.durable = onDisk p.saves) ∧
      (∀ op, (p.step b cfg op).saves = p.saves ∨
        ∃ first ready kill r r' ending, op = .batch first ready kill ∧ p.running = some r ∧
          r.applyBatch cfg (Process.batchOf first ready) = .ok r' ∧
          (p.step b cfg op).saves = p.saves ++ [⟨r'.node.durable, r'.now, ending⟩] ∧
          (ending ≠ .done → (p.step b cfg op).released = p.released ∧ (p.step b cfg op).running = none)) ∧
      ∀ rel ∈ p.released, rel.Acknowledges → ∀ more, ∃ durable tick,
        load b (Process.run b cfg p more).disk = .ok (some (durable, tick)) ∧ rel.HeldBy durable := by
  intro p
  obtain ⟨hsound, -⟩ := sound_run cfg hb (sound_blank b) ops
  refine ⟨hsound.loads, fun r hr => (hsound.running r hr).2.1, step_saves cfg b p, fun rel hrel hack more => ?_⟩
  obtain ⟨hlater, hgrows⟩ := sound_run cfg hb hsound more
  have hheld := (hsound.released rel hrel hack).mono hsound.lawful hlater.lawful hgrows
  cases hl : lastLanded (Process.run b cfg p more).saves with
  | none =>
    have hdisk : onDisk (Process.run b cfg p more).saves = .default := by rw [onDisk, hl]; rfl
    exact absurd (hdisk ▸ hheld) not_heldBy_default
  | some snapshot =>
    have hdisk : onDisk (Process.run b cfg p more).saves = snapshot.1 := by rw [onDisk, hl]; rfl
    exact ⟨snapshot.1, snapshot.2, by rw [hlater.loads, hl], hdisk ▸ hheld⟩

/-! ## A served client -/

/-- a snapshot with its maps as lists -/
def PersistedState.entries (s : PersistedState) :=
  (s.durable.recorders.entries, s.durable.nextSlot, s.durable.kv.map.entries, s.durable.kv.lastSeq.entries,
    s.durable.appliedLog, s.maxTick)

theorem PersistedState.entries_injective : Function.Injective PersistedState.entries := by
  rintro ⟨⟨recorders, nextSlot, ⟨map, lastSeq⟩, appliedLog⟩, maxTick⟩
    ⟨⟨recorders', nextSlot', ⟨map', lastSeq'⟩, appliedLog'⟩, maxTick'⟩ h
  simp only [PersistedState.entries, Prod.mk.injEq] at h
  obtain ⟨hr, rfl, hm, hl, rfl, rfl⟩ := h
  rw [AList.ext hr, AList.ext hm, AList.ext hl]

/-- the serializer of the snapshots in `l`: the place of a snapshot in it -/
def Bincode.table (l : List PersistedState) : Bincode where
  serialize s :=
    if s.entries ∈ l.map PersistedState.entries then
      some [((l.map PersistedState.entries).idxOf s.entries).toUInt8]
    else none
  deserialize
    | [i] => l[i.toNat]?
    | _ => none

theorem Bincode.table_roundTrips {l : List PersistedState} (h : l.length ≤ 256) : (Bincode.table l).RoundTrips := by
  intro s bytes hs
  by_cases hl : s.entries ∈ l.map PersistedState.entries
  · obtain rfl := Option.some.inj ((if_pos hl).symm.trans hs)
    have hlt := List.idxOf_lt_length_of_mem hl
    have hget := List.getElem_idxOf hlt
    generalize (l.map PersistedState.entries).idxOf s.entries = i at hlt hget
    rw [List.length_map] at hlt
    rw [List.getElem_map] at hget
    have hi : i.toUInt8.toNat = i := Nat.mod_eq_of_lt (hlt.trans_le h)
    show l[i.toUInt8.toNat]? = some s
    rw [hi, List.getElem?_eq_getElem hlt, PersistedState.entries_injective hget]
  · exact absurd ((if_neg hl).symm.trans hs) (by simp)

/-- a replica that is its own cluster -/
def alone : Config := ⟨0, 1, some 0, [], false⟩

def atBoot (e : Event) : Dispatch := ⟨e, 0, drawing 1⟩

def firstRequest (command : Command) : RecordRequest Command := ⟨0, FIRST_ROUND_STEP, ⟨command, H, 0⟩⟩

/-- the durable state after the first request, and after its decision -/
def recordedOnly (command : Command) : Durable :=
  { Durable.default with recorders := AList.insert 0 (Recorder.new.handle (firstRequest command)).1 ∅ }

def decidedToo (command : Command) : Durable :=
  { recordedOnly command with kv := (Kv.new.apply command).1, appliedLog := [command], nextSlot := 1 }

def twoSnapshots (command : Command) : Bincode := .table [⟨recordedOnly command, 0⟩, ⟨decidedToo command, 0⟩]

/-- a client's operation from its submission to its answer -/
def answered (command : Command) : List ProcOp :=
  [.boot none 0 (drawing 1) none,
    .batch (atBoot (.clientSubmit command)) [atBoot (.timer .kickoff)] none,
    .batch (atBoot (.message 0 (.request (firstRequest command)))) [] none,
    .batch (atBoot (.message 0 (.response (Recorder.new.handle (firstRequest command)).2))) [] none]

/-- then it is killed, and it boots again -/
def thenRebooted : List ProcOp := [.kill, .boot none 0 (drawing 1) none]

theorem write_before_reply_answered : ∃ durable tick,
    load (twoSnapshots (.put 2 1 7 9)) (Process.run (twoSnapshots (.put 2 1 7 9)) alone
      (Process.run (twoSnapshots (.put 2 1 7 9)) alone .blank (answered (.put 2 1 7 9))) thenRebooted).disk =
        .ok (some (durable, tick)) ∧
      (Release.outcome 0 ⟨0, .put 2 1 7 9, 0, some 0, some .put, some 0⟩).HeldBy durable ∧
      (Release.sent ⟨0, 0, .response (Recorder.new.handle (firstRequest (.put 2 1 7 9))).2⟩).HeldBy durable := by
  have hb : (twoSnapshots (.put 2 1 7 9)).RoundTrips := Bincode.table_roundTrips (by decide)
  obtain ⟨-, -, -, hheld⟩ := write_before_reply hb alone (answered (.put 2 1 7 9))
  obtain ⟨d, t, hload, houtcome⟩ :=
    hheld (.outcome 0 ⟨0, .put 2 1 7 9, 0, some 0, some .put, some 0⟩) (by decide +kernel) trivial thenRebooted
  obtain ⟨d', t', hload', hresp⟩ :=
    hheld (.sent ⟨0, 0, .response (Recorder.new.handle (firstRequest (.put 2 1 7 9))).2⟩) (by decide +kernel)
      ⟨_, rfl⟩ thenRebooted
  rw [hload, Except.ok.injEq, Option.some.injEq, Prod.mk.injEq] at hload'
  obtain ⟨rfl, rfl⟩ := hload'
  exact ⟨d, t, hload, houtcome, hresp⟩

end Queso.Net
