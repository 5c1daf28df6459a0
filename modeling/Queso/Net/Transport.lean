/-
The transport between the processes, and the inbox of each.

Every process dials every other one. What a batch releases for another replica joins the bounded queue of its dialer, and
is dropped when the queue is full; what it releases for itself joins its own inbox. A dialer opens one connection after
another. It names itself in the first frame, and each later frame is one message off its queue, unless the fault injector
drops it or resets the connection, or the write fails. An acceptor reads the frames of each of its connections in order;
it learns from the first one who is speaking, and puts the messages of the others into its inbox. A batch takes its events
off the inbox. A process starts with its dialers and acceptors: what they bring may be in the inbox before the process
has loaded its state. It takes its inbox, its queues and the connections it was reading along when it ends.

`history` lists the steps of the processes, `looped` what each sent itself, and `accepted` what a connection has put into
the inbox. No step reads them.

Any timer may fire and any client may submit at any time, a connection may break at any time, and the dialers of a process
that has just ended may still write: the batch and the death after it are one step here.

- `transport_faithful`: whatever the transport does, the processes run as a cluster whose steps are told only what was
  released to them, each message at most as often as it was released, each connection in order.
-/
import Queso.Lib.Codec
import Queso.Lib.Link
import Queso.Net.Accord

namespace Queso.Net

def OUTBOUND_QUEUE_CAPACITY : ℕ := 1024

/-- a frame of a connection between two replicas -/
inductive WireMsg where
  | hello (id : NodeId)
  | app (payload : SmrMsg)
deriving DecidableEq

/-- the serializer of the frames -/
structure Wire where
  encode : WireMsg → Bytes
  decode : Bytes → Option WireMsg

/-- what was encoded decodes to the same frame -/
def Wire.RoundTrips (w : Wire) : Prop := ∀ m, w.decode (w.encode m) = some m

/-- what the fault injector decides about a frame -/
inductive LinkAction where
  | send
  | drop
  | resetConnection
deriving DecidableEq

/-- who an acceptor thinks is speaking -/
inductive Reader where
  | expecting
  | hears (src : NodeId)
  | closed
deriving DecidableEq

/-- one connection: the frames written to it, how many were read, and the messages they put into the inbox -/
structure Conn where
  frames : List Bytes
  read : ℕ
  reader : Reader
  accepted : List (NodeId × SmrMsg)

/-- the acceptor reads the next frame -/
def Conn.receive (w : Wire) (c : Conn) : Conn × Option Event :=
  match c.frames[c.read]?, c.reader with
  | none, _ => (c, none)
  | some _, .closed => (c, none)
  | some bytes, .expecting =>
    match w.decode bytes with
    | some (.hello id) => ({ c with read := c.read + 1, reader := .hears id }, none)
    | _ => ({ c with read := c.read + 1, reader := .closed }, none)
  | some bytes, .hears src =>
    match w.decode bytes with
    | some (.app payload) =>
      ({ c with read := c.read + 1, accepted := c.accepted ++ [(src, payload)] }, some (.message src payload))
    -- a second greeting, or a frame that does not decode, is passed over
    | _ => ({ c with read := c.read + 1 }, none)

def Conn.close (c : Conn) : Conn := { c with reader := .closed }

/-- a dialer: its queue, whether it is writing, and its connections, the newest first -/
structure Dialer where
  queue : List SmrMsg
  connected : Bool
  conns : List Conn

namespace Dialer

def blank : Dialer := ⟨[], false, []⟩

/-- `try_send` -/
def enqueue (p : Dialer) (m : SmrMsg) : Dialer :=
  if p.queue.length < OUTBOUND_QUEUE_CAPACITY then { p with queue := p.queue ++ [m] } else p

/-- a new connection, greeted; `sent` says whether the greeting could be written -/
def dial (w : Wire) (i : NodeId) (p : Dialer) (sent : Bool) : Dialer :=
  if p.connected then p else { p with connected := sent, conns := ⟨[w.encode (.hello i)], 0, .expecting, []⟩ :: p.conns }

/-- the next message of the queue; when its write fails, the frame may have got through or not -/
def forward (w : Wire) (p : Dialer) (action : LinkAction) (sent : Bool) : Dialer :=
  match p.connected, p.queue, p.conns with
  | true, m :: queue, c :: conns =>
    match action with
    | .drop => { p with queue := queue }
    | .resetConnection => { p with queue := queue, connected := false }
    | .send => ⟨queue, sent, { c with frames := c.frames ++ [w.encode (.app m)] } :: conns⟩
  | _, _, _ => p

/-- the acceptor of connection `k` reads a frame -/
def receive (w : Wire) (p : Dialer) (k : ℕ) : Dialer × Option Event :=
  ({ p with conns := p.conns.modify k fun c => (c.receive w).1 }, p.conns[k]?.bind fun c => (c.receive w).2)

def cut (p : Dialer) (k : ℕ) : Dialer := { p with conns := p.conns.modify k Conn.close }

/-- the acceptor's process ends -/
def hangUp (p : Dialer) : Dialer := { p with conns := p.conns.map Conn.close }

/-- the dialer's process starts again -/
def restart (p : Dialer) : Dialer := { p with queue := [], connected := false }

/-- what its connections put into the inbox, the oldest connection first -/
def accepted (p : Dialer) : List (NodeId × SmrMsg) := (p.conns.map Conn.accepted).reverse.flatten

end Dialer

structure Deployed where
  cluster : Cluster
  /-- the processes whose acceptors run -/
  listening : NodeId → Bool
  inbox : NodeId → List Event
  /-- by dialer and acceptor -/
  dialers : NodeId → NodeId → Dialer
  looped : NodeId → List SmrMsg
  history : List ClusterOp

inductive NetOp where
  | listen (i : NodeId)
  | boot (i : NodeId) (fault : Option DiskFault) (elapsed : ℕ) (rng : NodeId → Draw) (kill : Option ℕ)
  | batch (i : NodeId) (taken : ℕ) (clock : ℕ → ℕ) (rng : ℕ → NodeId → Draw) (kill : Option Kill)
  | kill (i : NodeId)
  | fire (i : NodeId) (id : TimerId)
  | submit (i : NodeId) (command : Command)
  | dial (i j : NodeId) (sent : Bool)
  | forward (i j : NodeId) (action : LinkAction) (sent : Bool)
  | receive (i j : NodeId) (k : ℕ)
  | cut (i j : NodeId) (k : ℕ)

namespace Deployed

def blank : Deployed := ⟨.blank, fun _ => false, fun _ => [], fun _ _ => .blank, fun _ => [], []⟩

def setDialer (s : Deployed) (i j : NodeId) (p : Dialer) : Deployed :=
  { s with dialers := Function.update s.dialers i (Function.update (s.dialers i) j p) }

def post (s : Deployed) (i : NodeId) (e : Event) : Deployed :=
  { s with inbox := Function.update s.inbox i (s.inbox i ++ [e]) }

/-- one release of process `i` goes to its own inbox, to a dialer, or to a client -/
def hand (i : NodeId) (s : Deployed) : Release → Deployed
  | .sent e =>
    if e.dst = i then
      { s.post i (.message i e.payload) with looped := Function.update s.looped i (s.looped i ++ [e.payload]) }
    else s.setDialer i e.dst ((s.dialers i e.dst).enqueue e.payload)
  | .outcome _ _ => s

/-- process `i` spawns its dialers and acceptors -/
def listen (s : Deployed) (i : NodeId) : Deployed :=
  if s.listening i then s
  else
    { s with
      listening := Function.update s.listening i true
      dialers := Function.update s.dialers i fun j => (s.dialers i j).restart }

/-- what process `i` was reading ends with it -/
def down (s : Deployed) (i : NodeId) : Deployed :=
  { s with
    listening := Function.update s.listening i false
    inbox := Function.update s.inbox i []
    dialers := fun j => Function.update (s.dialers j) i (s.dialers j i).hangUp }

/-- a process steps, and what it lets go of is handed out -/
def act (b : Bincode) (d : Deployment) (s : Deployed) (o : ClusterOp) : Deployed :=
  let p := (s.cluster o.id).step b (d.config o.id) o.op
  let s' := { s with cluster := s.cluster.step b d o, history := s.history ++ [o] }
  let s' := (p.released.drop (s.cluster o.id).released.length).foldl (hand o.id) s'
  if p.running.isNone then s'.down o.id else s'

/-- the events taken off the inbox, each with its clock and its randomness -/
def stamped (events : List Event) (clock : ℕ → ℕ) (rng : ℕ → NodeId → Draw) : List Dispatch :=
  events.mapIdx fun n e => ⟨e, clock n, rng n⟩

def step (w : Wire) (b : Bincode) (d : Deployment) (s : Deployed) : NetOp → Deployed
  | .listen i => s.listen i
  -- the acceptors run from here on at the latest, and what they brought before is in the inbox already
  | .boot i fault elapsed rng kill =>
    if (s.cluster i).running.isSome then s else (s.listen i).act b d ⟨i, .boot fault elapsed rng kill⟩
  | .batch i taken clock rng kill =>
    let n := min taken GROUP_COMMIT_BATCH_LIMIT
    if (s.cluster i).running.isNone then s
    else
      match stamped ((s.inbox i).take n) clock rng with
      | [] => s
      | first :: ready => { s with inbox := Function.update s.inbox i ((s.inbox i).drop n) }.act b d
          ⟨i, .batch first ready kill⟩
  | .kill i => s.act b d ⟨i, .kill⟩
  | .fire i id => if (s.cluster i).running.isSome then s.post i (.timer id) else s
  | .submit i command => if s.listening i then s.post i (.clientSubmit command) else s
  | .dial i j sent =>
    if (j ∈ d.peers i ∧ j ≠ i) ∧ s.listening j then s.setDialer i j ((s.dialers i j).dial w i sent) else s
  | .forward i j action sent => s.setDialer i j ((s.dialers i j).forward w action sent)
  | .receive i j k =>
    let (p, e) := (s.dialers i j).receive w k
    match e with
    | none => s.setDialer i j p
    | some e => (s.setDialer i j p).post j e
  | .cut i j k => s.setDialer i j ((s.dialers i j).cut k)

abbrev run (w : Wire) (b : Bincode) (d : Deployment) (ops : List NetOp) : Deployed := Runs.run (step w b d) blank ops

end Deployed

def Release.messageFor (j : NodeId) : Release → Option SmrMsg
  | .sent e => if e.dst = j then some e.payload else none
  | .outcome _ _ => none

/-- what was released for replica `j`, in order -/
def stream (releases : List Release) (j : NodeId) : List SmrMsg := releases.filterMap (Release.messageFor j)

/-- what the batches of replica `i` were told, in order -/
def told (ops : List ClusterOp) (i : NodeId) : List Event :=
  ops.flatMap fun o => if o.id = i then o.op.events.map Dispatch.event else []

/-! ## A serializer of frames -/

def commandCodec : Codec Command :=
  ((Codec.nat.prod (Codec.nat.prod (Codec.nat.prod Codec.int))).sum (Codec.nat.prod (Codec.nat.prod Codec.nat))).via
    (Sum.elim (fun f => .put f.1 f.2.1 f.2.2.1 f.2.2.2) fun f => .get f.1 f.2.1 f.2.2)
    (fun
      | .put c s k v => .inl (c, s, k, v)
      | .get c s k => .inr (c, s, k))
    (by rintro (_ | _) <;> rfl)

def proposalCodec : Codec (Proposal Command) :=
  (commandCodec.prod (Codec.nat.prod Codec.nat)).via (fun f => ⟨f.1, f.2.1, f.2.2⟩)
    (fun p => (p.value, p.priority, p.origin)) fun _ => rfl

def requestCodec : Codec (RecordRequest Command) :=
  (Codec.nat.prod (Codec.nat.prod proposalCodec)).via (fun f => ⟨f.1, f.2.1, f.2.2⟩)
    (fun r => (r.slot, r.reqStep, r.proposal)) fun _ => rfl

def responseCodec : Codec (RecordResponse Command) :=
  (Codec.nat.prod (Codec.nat.prod (Codec.nat.prod (proposalCodec.option.prod proposalCodec.option)))).via
    (fun f => ⟨f.1, f.2.1, f.2.2.1, f.2.2.2.1, f.2.2.2.2⟩)
    (fun r => (r.slot, r.reqStep, r.step, r.first, r.priorAgg)) fun _ => rfl

def frameCodec : Codec WireMsg :=
  (Codec.nat.sum (requestCodec.sum responseCodec)).via
    (Sum.elim .hello (Sum.elim (fun r => .app (.request r)) fun r => .app (.response r)))
    (fun
      | .hello id => .inl id
      | .app (.request r) => .inr (.inl r)
      | .app (.response r) => .inr (.inr r))
    (by rintro (_ | _ | _) <;> rfl)

/-- the variant, then its fields in order -/
def Wire.fields : Wire := ⟨frameCodec.encode, frameCodec.decode⟩

theorem Wire.fields_roundTrips : Wire.fields.RoundTrips := frameCodec.decode_encode

/-! ## One connection -/

/-- replica `i` greeted and wrote the messages `ms`; the reader took the first of them for what they are -/
structure Conn.Carries (w : Wire) (i : NodeId) (c : Conn) (ms : List SmrMsg) : Prop where
  frames : c.frames = w.encode (.hello i) :: ms.map fun m => w.encode (.app m)
  read : c.read ≤ ms.length + 1
  accepted : c.accepted = (ms.take (c.read - 1)).map (i, ·)
  expecting : c.reader = .expecting → c.read = 0
  hears : ∀ src, c.reader = .hears src → src = i ∧ 0 < c.read

section Carries

variable {w : Wire} {i : NodeId} {c : Conn} {ms : List SmrMsg}

theorem Conn.Carries.close (h : c.Carries w i ms) : c.close.Carries w i ms :=
  ⟨h.frames, h.read, h.accepted, fun hr => absurd hr (by simp [Conn.close]), fun _ hr => absurd hr (by simp [Conn.close])⟩

theorem Conn.Carries.write (h : c.Carries w i ms) (m : SmrMsg) :
    Conn.Carries w i { c with frames := c.frames ++ [w.encode (.app m)] } (ms ++ [m]) where
  frames := by
    show c.frames ++ [w.encode (.app m)] = _
    rw [h.frames]
    simp
  read := by
    have hread := h.read
    rw [List.length_append]
    exact hread.trans (by omega)
  accepted := by
    have hread := h.read
    show c.accepted = ((ms ++ [m]).take (c.read - 1)).map (i, ·)
    rw [List.take_append_of_le_length (by omega), h.accepted]
  expecting := h.expecting
  hears := h.hears

theorem Conn.Carries.accepted_sublist (h : c.Carries w i ms) : (c.accepted.map Prod.snd).Sublist ms := by
  rw [h.accepted, List.map_map]
  have hsame : (Prod.snd ∘ fun m : SmrMsg => (i, m)) = id := rfl
  rw [hsame, List.map_id]
  exact List.take_sublist ..

theorem Conn.Carries.named (h : c.Carries w i ms) : ∀ x ∈ c.accepted, x.1 = i := by
  rw [h.accepted]
  intro x hx
  obtain ⟨m, -, rfl⟩ := List.mem_map.1 hx
  rfl

/-- **One frame**: the reader puts the next message into the inbox under the name of its sender, or nothing. -/
theorem Conn.Carries.receive (hw : w.RoundTrips) (h : c.Carries w i ms) :
    (c.receive w).1.Carries w i ms ∧
      ((c.receive w).2 = none ∧ (c.receive w).1.accepted = c.accepted ∨
        ∃ m, (c.receive w).2 = some (.message i m) ∧ (c.receive w).1.accepted = c.accepted ++ [(i, m)]) := by
  unfold Conn.receive
  cases hget : c.frames[c.read]? with
  | none => exact ⟨h, .inl ⟨rfl, rfl⟩⟩
  | some bytes =>
    cases hr : c.reader with
    | closed => exact ⟨h, .inl ⟨rfl, rfl⟩⟩
    | expecting =>
      -- the first frame is the greeting
      have hzero := h.expecting hr
      rw [h.frames, hzero] at hget
      obtain rfl := Option.some.inj hget
      have hacc : c.accepted = [] := by rw [h.accepted, hzero]; rfl
      dsimp only
      rw [hw, hzero]
      dsimp only
      refine ⟨⟨h.frames, Nat.succ_le_succ (Nat.zero_le _), hacc, fun hr' => absurd hr' (by simp), fun src hr' => ?_⟩, .inl ⟨rfl, rfl⟩⟩
      obtain rfl := Reader.hears.inj hr'
      exact ⟨rfl, Nat.succ_pos _⟩
    | hears src =>
      -- each later frame is a message
      obtain ⟨rfl, hpos⟩ := h.hears src hr
      obtain ⟨n, hn⟩ : ∃ n, c.read = n + 1 := ⟨c.read - 1, by omega⟩
      rw [h.frames, hn, List.getElem?_cons_succ, List.getElem?_map] at hget
      obtain ⟨m, hm, rfl⟩ := Option.map_eq_some_iff.1 hget
      have hlt : n < ms.length := (List.getElem?_eq_some_iff.1 hm).1
      have hacc := h.accepted
      rw [hn, Nat.add_sub_cancel] at hacc
      dsimp only
      rw [hw, hn]
      dsimp only
      refine ⟨⟨h.frames, Nat.succ_le_succ hlt, ?_, fun hr' => absurd hr' (by simp), fun src' hr' => ?_⟩, .inr ⟨m, rfl, rfl⟩⟩
      · show c.accepted ++ [(src, m)] = (ms.take (n + 1)).map (src, ·)
        rw [List.take_add_one, hm, List.map_append, hacc]
        rfl
      · exact ⟨(Reader.hears.inj hr').symm, Nat.succ_pos _⟩

end Carries

/-! ## One dialer -/

/-- the dialer of replica `i` is a link that carries what was released to it, in order -/
structure Dialer.Tracks (w : Wire) (i : NodeId) (sent : List SmrMsg) (p : Dialer) : Prop where
  link : ∃ written, List.Forall₂ (Conn.Carries w i) p.conns written ∧ Link.InOrder sent ⟨p.queue, written⟩
  bounded : p.queue.length ≤ OUTBOUND_QUEUE_CAPACITY

section Tracks

variable {w : Wire} {i : NodeId} {sent : List SmrMsg} {p : Dialer}

theorem Dialer.tracks_blank (w : Wire) (i : NodeId) : Dialer.blank.Tracks w i [] :=
  ⟨⟨[], .nil, Link.inOrder_blank _⟩, Nat.zero_le _⟩

theorem Dialer.Tracks.later (h : p.Tracks w i sent) (more : List SmrMsg) : p.Tracks w i (sent ++ more) := by
  obtain ⟨written, hconns, horder⟩ := h.link
  exact ⟨⟨written, hconns, horder.trans (List.sublist_append_left ..)⟩, h.bounded⟩

theorem Dialer.Tracks.enqueue (h : p.Tracks w i sent) (m : SmrMsg) : (p.enqueue m).Tracks w i (sent ++ [m]) := by
  obtain ⟨written, hconns, horder⟩ := h.link
  have hpush := horder.push OUTBOUND_QUEUE_CAPACITY m
  have hlen := Link.length_push (l := ⟨p.queue, written⟩) h.bounded m
  unfold Link.push at hpush hlen
  unfold Dialer.enqueue
  split_ifs at hpush hlen ⊢
  · exact ⟨⟨written, hconns, hpush⟩, hlen⟩
  · exact ⟨⟨written, hconns, hpush⟩, hlen⟩

theorem Dialer.Tracks.dial (h : p.Tracks w i sent) (ok : Bool) : (p.dial w i ok).Tracks w i sent := by
  unfold Dialer.dial
  split_ifs
  · exact h
  · obtain ⟨written, hconns, horder⟩ := h.link
    have hnew : Conn.Carries w i ⟨[w.encode (.hello i)], 0, .expecting, []⟩ [] :=
      ⟨rfl, Nat.zero_le _, rfl, fun _ => rfl, fun _ hr => absurd hr (by simp)⟩
    exact ⟨⟨[] :: written, .cons hnew hconns, horder.connect⟩, h.bounded⟩

theorem Dialer.Tracks.forward (h : p.Tracks w i sent) (action : LinkAction) (ok : Bool) :
    (p.forward w action ok).Tracks w i sent := by
  unfold Dialer.forward
  split
  · rename_i m queue c conns hup hq hc
    obtain ⟨written, hconns, horder⟩ := h.link
    have hlen : queue.length ≤ OUTBOUND_QUEUE_CAPACITY := by
      have hbound := h.bounded
      rw [hq] at hbound
      exact (Nat.le_succ _).trans hbound
    rw [hq] at horder
    rw [hc] at hconns
    obtain ⟨ms, rest, hcarries, hrest, rfl⟩ := List.forall₂_cons_left_iff.1 hconns
    cases action with
    | drop => exact ⟨⟨_, hc ▸ hconns, horder.drop⟩, hlen⟩
    | resetConnection => exact ⟨⟨_, hc ▸ hconns, horder.drop⟩, hlen⟩
    | send => exact ⟨⟨_, .cons (hcarries.write m) hrest, horder.write⟩, hlen⟩
  · exact h

theorem Dialer.Tracks.restart (h : p.Tracks w i sent) : p.restart.Tracks w i sent := by
  obtain ⟨written, hconns, horder⟩ := h.link
  exact ⟨⟨written, hconns, horder.forget⟩, Nat.zero_le _⟩

theorem forall₂_modify {α β : Type*} {R : α → β → Prop} {f : α → α} (hf : ∀ a b, R a b → R (f a) b) {l : List α}
    {m : List β} (h : List.Forall₂ R l m) (k : ℕ) : List.Forall₂ R (l.modify k f) m := by
  induction h generalizing k with
  | nil => simp
  | cons hab hrest ih =>
    cases k with
    | zero => exact .cons (hf _ _ hab) hrest
    | succ k => exact .cons hab (ih k)

/-- what the acceptors do leaves what the link carries -/
theorem Dialer.Tracks.reread (h : p.Tracks w i sent) {f : Conn → Conn}
    (hf : ∀ c ms, c.Carries w i ms → (f c).Carries w i ms) (k : ℕ) :
    Dialer.Tracks w i sent { p with conns := p.conns.modify k f } := by
  obtain ⟨written, hconns, horder⟩ := h.link
  exact ⟨⟨written, forall₂_modify hf hconns k, horder⟩, h.bounded⟩

theorem Dialer.Tracks.hangUp (h : p.Tracks w i sent) : p.hangUp.Tracks w i sent := by
  obtain ⟨written, hconns, horder⟩ := h.link
  exact ⟨⟨written, List.forall₂_map_left_iff.2 (hconns.imp fun _ _ hc => hc.close), horder⟩, h.bounded⟩

/-! ### What its connections put into the inbox -/

/-- the messages of the connections are those of a part of what was released, under the name of the sender -/
theorem Dialer.Tracks.accepted (h : p.Tracks w i sent) :
    (∀ x ∈ p.accepted, x.1 = i) ∧ (p.accepted.map Prod.snd).Sublist sent := by
  obtain ⟨written, hconns, horder⟩ := h.link
  constructor
  · have hname : ∀ c ∈ p.conns, ∀ x ∈ c.accepted, x.1 = i :=
      ((List.forall₂_and_left _ _).1 (hconns.imp fun c ms hc => ⟨hc.named, hc⟩)).1
    intro x hx
    obtain ⟨l, hl, hxl⟩ := List.mem_flatten.1 hx
    obtain ⟨c, hc, rfl⟩ := List.mem_map.1 (List.mem_reverse.1 hl)
    exact hname c hc x hxl
  · have hpart : List.Forall₂ List.Sublist (p.conns.map fun c => c.accepted.map Prod.snd) written :=
      List.forall₂_map_left_iff.2 (hconns.imp fun _ _ hc => hc.accepted_sublist)
    have hsame : p.accepted.map Prod.snd = (p.conns.map fun c => c.accepted.map Prod.snd).reverse.flatten := by
      rw [Dialer.accepted, List.map_flatten, List.map_reverse, List.map_map]
      rfl
    rw [hsame]
    exact horder.arrived hpart

theorem Dialer.count_accepted (p : Dialer) (x : NodeId × SmrMsg) :
    p.accepted.count x = (p.conns.map fun c => c.accepted.count x).sum := by
  rw [Dialer.accepted, List.count_flatten, List.map_reverse, List.sum_reverse, List.map_map]
  rfl

theorem Dialer.accepted_dial (w : Wire) (i : NodeId) (p : Dialer) (ok : Bool) : (p.dial w i ok).accepted = p.accepted := by
  unfold Dialer.dial
  split_ifs
  · rfl
  · simp [Dialer.accepted]

theorem Dialer.accepted_forward (w : Wire) (p : Dialer) (action : LinkAction) (ok : Bool) :
    (p.forward w action ok).accepted = p.accepted := by
  unfold Dialer.forward
  split
  · rename_i m queue c conns hup hq hc
    cases action with
    | drop => rfl
    | resetConnection => rfl
    | send => simp [Dialer.accepted, hc]
  · rfl

theorem Dialer.accepted_enqueue (p : Dialer) (m : SmrMsg) : (p.enqueue m).accepted = p.accepted := by
  unfold Dialer.enqueue
  split_ifs <;> rfl

theorem Dialer.accepted_hangUp (p : Dialer) : p.hangUp.accepted = p.accepted := by
  unfold Dialer.accepted Dialer.hangUp
  rw [List.map_map]
  rfl

theorem Dialer.accepted_cut (p : Dialer) (k : ℕ) : (p.cut k).accepted = p.accepted := by
  have hsame : (p.conns.modify k Conn.close).map Conn.accepted = p.conns.map Conn.accepted := by
    generalize p.conns = conns
    induction conns generalizing k with
    | nil => simp
    | cons c conns ih =>
      cases k with
      | zero => rfl
      | succ k => simp only [List.modify_succ_cons, List.map_cons, ih]
  unfold Dialer.accepted Dialer.cut
  rw [hsame]

/-- what one connection adds, the dialer's connections add -/
theorem Dialer.count_modify (p : Dialer) {f : Conn → Conn} {k : ℕ} {c : Conn} (hk : p.conns[k]? = some c)
    {more : List (NodeId × SmrMsg)} (hf : (f c).accepted = c.accepted ++ more) (x : NodeId × SmrMsg) :
    (Dialer.accepted { p with conns := p.conns.modify k f }).count x = p.accepted.count x + more.count x := by
  rw [Dialer.count_accepted, Dialer.count_accepted]
  dsimp only
  generalize p.conns = conns at hk
  induction conns generalizing k with
  | nil => exact absurd hk (by simp)
  | cons d conns ih =>
    cases k with
    | zero =>
      obtain rfl := Option.some.inj hk
      simp only [List.modify_zero_cons, List.map_cons, List.sum_cons, hf, List.count_append]
      omega
    | succ k =>
      simp only [List.modify_succ_cons, List.map_cons, List.sum_cons]
      rw [ih hk]
      omega

/-- **One frame read**: the inbox gets what the connection adds to its messages. -/
theorem Dialer.Tracks.receive (hw : w.RoundTrips) (h : p.Tracks w i sent) (k : ℕ) :
    (p.receive w k).1.Tracks w i sent ∧
      ((p.receive w k).2 = none ∧ (∀ x, (p.receive w k).1.accepted.count x = p.accepted.count x) ∨
        ∃ m, (p.receive w k).2 = some (.message i m) ∧
          ∀ x, (p.receive w k).1.accepted.count x = p.accepted.count x + [(i, m)].count x) := by
  refine ⟨h.reread (fun _ _ hc => (hc.receive hw).1) k, ?_⟩
  unfold Dialer.receive
  cases hk : p.conns[k]? with
  | none =>
    refine .inl ⟨rfl, fun x => ?_⟩
    rw [List.modify_eq_self (List.getElem?_eq_none_iff.1 hk)]
  | some c =>
    obtain ⟨written, hconns, -⟩ := h.link
    have hread : ∀ c ∈ p.conns, (c.receive w).2 = none ∧ (c.receive w).1.accepted = c.accepted ∨
        ∃ m, (c.receive w).2 = some (.message i m) ∧ (c.receive w).1.accepted = c.accepted ++ [(i, m)] :=
      ((List.forall₂_and_left _ _).1 (hconns.imp fun c ms hc => ⟨(hc.receive hw).2, hc⟩)).1
    rcases hread c (List.mem_of_getElem? hk) with ⟨hnone, hacc⟩ | ⟨m, hsome, hacc⟩
    · refine .inl ⟨hnone, fun x => ?_⟩
      have hcount := p.count_modify (f := fun c => (c.receive w).1) hk (hacc.trans (List.append_nil _).symm) x
      simpa using hcount
    · exact .inr ⟨m, hsome, p.count_modify (f := fun c => (c.receive w).1) hk hacc⟩

end Tracks

/-! ## The system -/

theorem stream_append (R more : List Release) (j : NodeId) : stream (R ++ more) j = stream R j ++ stream more j :=
  List.filterMap_append

theorem count_stream {R : List Release} {i : NodeId} (hsrc : ∀ e, .sent e ∈ R → e.src = i) (j : NodeId) (m : SmrMsg) :
    (stream R j).count m = R.count (.sent ⟨i, j, m⟩) := by
  induction R with
  | nil => rfl
  | cons r R ih =>
    have hrest := ih fun e he => hsrc e (List.mem_cons_of_mem _ he)
    unfold stream at hrest ⊢
    rw [List.count_cons, ← hrest]
    cases r with
    | outcome id record => rw [List.filterMap_cons]; simp [Release.messageFor]
    | sent e =>
      obtain ⟨src, dst, payload⟩ := e
      obtain rfl : src = i := hsrc _ (List.mem_cons_self ..)
      by_cases hdst : dst = j
      · subst hdst
        simp [Release.messageFor, List.count_cons]
      · simp [Release.messageFor, hdst]

theorem told_snoc (ops : List ClusterOp) (o : ClusterOp) (i : NodeId) :
    told (ops ++ [o]) i = told ops i ++ if o.id = i then o.op.events.map Dispatch.event else [] := by
  simp [told]

/-- what was released, `rel`, is all that is on its way, and what a replica was told or will be told from its inbox came
over a connection, or from itself, once for each time that it was released -/
structure Wired (w : Wire) (rel : NodeId → List Release) (s : Deployed) : Prop where
  tracks : ∀ i j, (s.dialers i j).Tracks w i (stream (rel i) j)
  alone : ∀ i, (s.dialers i i).conns = []
  looped : ∀ i, (s.looped i).Sublist (stream (rel i) i)
  once : ∀ i j m, (told s.history i ++ s.inbox i).count (.message j m) ≤
    if j = i then (s.looped i).count m else (s.dialers j i).accepted.count (j, m)

section Wired

variable {w : Wire} {rel : NodeId → List Release} {s : Deployed}

theorem Wired.count_le (h : Wired w rel s) (hsrc : ∀ i e, .sent e ∈ rel i → e.src = i) (i j : NodeId) (m : SmrMsg) :
    (told s.history i ++ s.inbox i).count (.message j m) ≤ (rel j).count (.sent ⟨j, i, m⟩) := by
  have honce := h.once i j m
  rw [← count_stream (hsrc j)]
  split_ifs at honce with hj
  · subst hj
    exact honce.trans ((h.looped j).count_le m)
  · obtain ⟨-, hsub⟩ := (h.tracks j i).accepted
    exact honce.trans ((List.count_le_count_map (f := Prod.snd)).trans (hsub.count_le m))

theorem stream_grows (rel : NodeId → List Release) (i : NodeId) (r : Release) (k j : NodeId) :
    ∃ more, stream (Function.update rel i (rel i ++ [r]) k) j = stream (rel k) j ++ more := by
  by_cases hk : k = i
  · subst hk
    exact ⟨_, by rw [Function.update_self, stream_append]⟩
  · exact ⟨[], by rw [Function.update_of_ne hk, List.append_nil]⟩

/-- a release that concerns no link -/
theorem Wired.later (h : Wired w rel s) (i : NodeId) (r : Release) :
    Wired w (Function.update rel i (rel i ++ [r])) s where
  tracks := fun k j => by
    obtain ⟨more, hmore⟩ := stream_grows rel i r k j
    rw [hmore]
    exact (h.tracks k j).later more
  alone := h.alone
  looped := fun k => by
    obtain ⟨more, hmore⟩ := stream_grows rel i r k k
    rw [hmore]
    exact (h.looped k).trans (List.sublist_append_left ..)
  once := h.once

theorem dialers_setDialer (s : Deployed) (i j : NodeId) (p : Dialer) (k l : NodeId) :
    (s.setDialer i j p).dialers k l = if k = i ∧ l = j then p else s.dialers k l := by
  unfold Deployed.setDialer
  by_cases hk : k = i
  · subst hk
    by_cases hl : l = j
    · simp [hl]
    · simp [hl]
  · simp [hk]

/-- a dialer moves on -/
theorem Wired.setDialer (h : Wired w rel s) {i j : NodeId} {p : Dialer} (htracks : p.Tracks w i (stream (rel i) j))
    (halone : i = j → p.conns = []) (hacc : ∀ x, (s.dialers i j).accepted.count x ≤ p.accepted.count x) :
    Wired w rel (s.setDialer i j p) where
  tracks := fun k l => by
    rw [dialers_setDialer]
    split_ifs with hkl
    · rw [hkl.1, hkl.2]
      exact htracks
    · exact h.tracks k l
  alone := fun k => by
    rw [dialers_setDialer]
    split_ifs with hkl
    · exact halone (hkl.1.symm.trans hkl.2)
    · exact h.alone k
  looped := h.looped
  once := fun k l m => by
    have honce := h.once k l m
    rw [dialers_setDialer]
    split_ifs at honce ⊢ with hl hkl
    · exact honce
    · rw [hkl.1, hkl.2] at honce ⊢
      exact honce.trans (hacc _)
    · exact honce

/-- **One release is handed out.** -/
theorem Wired.hand (h : Wired w rel s) (i : NodeId) (r : Release) :
    Wired w (Function.update rel i (rel i ++ [r])) (s.hand i r) := by
  have hlater := h.later i r
  cases r with
  | outcome id record => exact hlater
  | sent e =>
    have hto : stream (Function.update rel i (rel i ++ [.sent e]) i) e.dst = stream (rel i) e.dst ++ [e.payload] := by
      rw [Function.update_self, stream_append]
      simp [stream, Release.messageFor]
    unfold Deployed.hand
    dsimp only
    split_ifs with hdst
    · -- to itself: the inbox and what it sent itself grow together
      rw [hdst] at hto
      refine ⟨hlater.tracks, hlater.alone, fun k => ?_, fun k j m => ?_⟩
      · by_cases hk : k = i
        · subst hk
          show (Function.update s.looped k _ k).Sublist _
          rw [hto, Function.update_self]
          exact (h.looped k).append (.refl _)
        · show (Function.update s.looped i _ k).Sublist _
          rw [Function.update_of_ne hk]
          exact hlater.looped k
      · show (told s.history k ++ Function.update s.inbox i (s.inbox i ++ [.message i e.payload]) k).count _ ≤
          if j = k then (Function.update s.looped i (s.looped i ++ [e.payload]) k).count m else _
        have honce := h.once k j m
        by_cases hk : k = i
        · subst hk
          rw [Function.update_self, Function.update_self, ← List.append_assoc, List.count_append]
          split_ifs at honce ⊢ with hj
          · subst hj
            have hone : [Event.message j e.payload].count (.message j m) = [e.payload].count m := by
              simp [List.count_cons]
            calc _ ≤ (s.looped j).count m + [Event.message j e.payload].count (.message j m) :=
                  Nat.add_le_add_right honce _
              _ = (s.looped j ++ [e.payload]).count m := by rw [List.count_append, hone]
          · have hnone : [Event.message k e.payload].count (.message j m) = 0 :=
              List.count_eq_zero.2 fun hmem => hj (Event.message.inj (List.mem_singleton.1 hmem)).1
            rw [hnone]
            exact honce
        · rw [Function.update_of_ne hk, Function.update_of_ne hk]
          exact honce
    · -- to the dialer of another replica
      refine hlater.setDialer ?_ (fun hself => absurd hself.symm hdst) fun x => ?_
      · rw [hto]
        exact (h.tracks i e.dst).enqueue e.payload
      · rw [Dialer.accepted_enqueue]

theorem Wired.handAll (h : Wired w rel s) (i : NodeId) (rs : List Release) :
    Wired w (Function.update rel i (rel i ++ rs)) (rs.foldl (Deployed.hand i) s) := by
  induction rs generalizing rel s with
  | nil =>
    rw [List.append_nil, Function.update_eq_self]
    exact h
  | cons r rs ih =>
    have hrest := ih (h.hand i r)
    rwa [Function.update_self, Function.update_idem, List.append_assoc] at hrest

/-- what a process was reading ends with it -/
theorem Wired.down (h : Wired w rel s) (i : NodeId) : Wired w rel (s.down i) where
  tracks := fun k l => by
    show Dialer.Tracks w k _ (Function.update (s.dialers k) i (s.dialers k i).hangUp l)
    by_cases hl : l = i
    · subst hl
      rw [Function.update_self]
      exact (h.tracks k l).hangUp
    · rw [Function.update_of_ne hl]
      exact h.tracks k l
  alone := fun k => by
    show (Function.update (s.dialers k) i (s.dialers k i).hangUp k).conns = []
    by_cases hk : k = i
    · subst hk
      rw [Function.update_self, Dialer.hangUp, h.alone, List.map_nil]
    · rw [Function.update_of_ne hk]
      exact h.alone k
  looped := h.looped
  once := fun k l m => by
    have hacc : ((s.down i).dialers l k).accepted = (s.dialers l k).accepted := by
      show (Function.update (s.dialers l) i (s.dialers l i).hangUp k).accepted = _
      by_cases hk : k = i
      · subst hk
        rw [Function.update_self, Dialer.accepted_hangUp]
      · rw [Function.update_of_ne hk]
    have hsub : (told s.history k ++ (s.down i).inbox k).Sublist (told s.history k ++ s.inbox k) := by
      refine (List.Sublist.refl _).append ?_
      show (Function.update s.inbox i [] k).Sublist _
      by_cases hk : k = i
      · subst hk
        rw [Function.update_self]
        exact List.nil_sublist _
      · rw [Function.update_of_ne hk]
    rw [hacc]
    exact (hsub.count_le _).trans (h.once k l m)

/-- the dialers of a process start again with it -/
theorem Wired.listen (h : Wired w rel s) (i : NodeId) : Wired w rel (s.listen i) := by
  have hdial : ∀ k l, Function.update s.dialers i (fun j => (s.dialers i j).restart) k l =
      if k = i then (s.dialers k l).restart else s.dialers k l := by
    intro k l
    by_cases hk : k = i
    · subst hk
      simp
    · simp [hk]
  unfold Deployed.listen
  split_ifs
  · exact h
  refine ⟨fun k l => ?_, fun k => ?_, h.looped, fun k l m => ?_⟩
  · dsimp only
    rw [hdial]
    split_ifs
    · exact (h.tracks k l).restart
    · exact h.tracks k l
  · dsimp only
    rw [hdial]
    split_ifs
    · exact h.alone k
    · exact h.alone k
  · dsimp only
    have hacc : (Function.update s.dialers i (fun j => (s.dialers i j).restart) l k).accepted = (s.dialers l k).accepted := by
      rw [hdial]
      split_ifs <;> rfl
    rw [hacc]
    exact h.once k l m

/-- an event that is no message joins an inbox -/
theorem Wired.post (h : Wired w rel s) {i : NodeId} {e : Event} (he : ∀ src m, e ≠ .message src m) :
    Wired w rel (s.post i e) := by
  refine ⟨h.tracks, h.alone, h.looped, fun k l m => ?_⟩
  have hsame : (told s.history k ++ (s.post i e).inbox k).count (.message l m) =
      (told s.history k ++ s.inbox k).count (.message l m) := by
    unfold Deployed.post
    dsimp only
    by_cases hk : k = i
    · subst hk
      rw [Function.update_self, ← List.append_assoc, List.count_append, List.count_singleton, Nat.add_eq_left,
        if_neg (by simpa using he l m)]
    · rw [Function.update_of_ne hk]
  exact hsame.trans_le (h.once k l m)

/-- **One frame is read.** -/
theorem Wired.receive (hw : w.RoundTrips) (h : Wired w rel s) (b : Bincode) (d : Deployment) (i j : NodeId) (k : ℕ) :
    Wired w rel (s.step w b d (.receive i j k)) := by
  obtain ⟨htracks, hread⟩ := (h.tracks i j).receive hw k
  have halone : i = j → ((s.dialers i j).receive w k).1.conns = [] := by
    rintro rfl
    simp [Dialer.receive, h.alone]
  show Wired w rel (match ((s.dialers i j).receive w k).2 with
    | none => s.setDialer i j ((s.dialers i j).receive w k).1
    | some e => (s.setDialer i j ((s.dialers i j).receive w k).1).post j e)
  rcases hread with ⟨hnone, hcount⟩ | ⟨m, hsome, hcount⟩
  · rw [hnone]
    exact h.setDialer htracks halone fun x => (hcount x).ge
  · rw [hsome]
    have hset := h.setDialer htracks halone fun x => (hcount x).symm ▸ Nat.le_add_right _ _
    have hne : i ≠ j := by
      rintro rfl
      simp [Dialer.receive, h.alone] at hsome
    refine ⟨hset.tracks, hset.alone, hset.looped, fun k' l m' => ?_⟩
    have honce := h.once k' l m'
    show (told s.history k' ++ Function.update s.inbox j (s.inbox j ++ [.message i m]) k').count (.message l m') ≤
      if l = k' then (s.looped k').count m' else ((s.setDialer i j _).dialers l k').accepted.count (l, m')
    rw [dialers_setDialer]
    by_cases hk : k' = j
    · subst hk
      rw [Function.update_self, ← List.append_assoc, List.count_append]
      by_cases hl : l = i
      · subst hl
        rw [if_neg hne] at honce ⊢
        rw [if_pos ⟨rfl, rfl⟩, hcount]
        have hone : [Event.message l m].count (.message l m') = [(l, m)].count (l, m') := by simp [List.count_cons]
        rw [hone]
        exact Nat.add_le_add_right honce _
      · have hnone : [Event.message i m].count (.message l m') = 0 :=
          List.count_eq_zero.2 fun hmem => hl (Event.message.inj (List.mem_singleton.1 hmem)).1
        have hother : ¬ (l = i ∧ k' = k') := fun hboth => hl hboth.1
        rw [hnone, if_neg hother]
        exact honce
    · have hother : ¬ (l = i ∧ k' = j) := fun hboth => hk hboth.2
      rw [Function.update_of_ne hk, if_neg hother]
      exact honce

/-- a step of a process that takes nothing off its inbox -/
theorem Wired.records (h : Wired w rel s) {o : ClusterOp} (ho : o.op.events = []) :
    Wired w rel { s with history := s.history ++ [o] } := by
  refine ⟨h.tracks, h.alone, h.looped, fun i j m => ?_⟩
  have hsame : told (s.history ++ [o]) i = told s.history i := by
    rw [told_snoc, ho]
    split_ifs <;> simp
  dsimp only
  rw [hsame]
  exact h.once i j m

end Wired

/-- a process sends under its own name -/
structure Signed (i : NodeId) (p : Process) : Prop where
  released : ∀ e, .sent e ∈ p.released → e.src = i
  running : ∀ r, p.running = some r → ∀ e ∈ r.pendingOutbound, e.src = i

section Signed

variable {b : Bincode} {cfg : Config} {p : Process}

theorem absorb_src {r r' : Running} {out : SmrOutcome} (h : r.absorb cfg out = .ok r')
    (hr : ∀ e ∈ r.pendingOutbound, e.src = cfg.id) : ∀ e ∈ r'.pendingOutbound, e.src = cfg.id := by
  obtain ⟨nd', sh', fx, ho, -⟩ := Running.absorb_ok h
  obtain ⟨-, -, hpend⟩ := absorb_tagging h ho
  rw [hpend]
  exact fun e he => (List.mem_append.1 he).elim (hr e) Smr.sendsOf_src

theorem applyBatch_src {r r' : Running} {events : List Dispatch} (h : r.applyBatch cfg events = .ok r')
    (hr : ∀ e ∈ r.pendingOutbound, e.src = cfg.id) : ∀ e ∈ r'.pendingOutbound, e.src = cfg.id := by
  induction events generalizing r with
  | nil =>
    obtain rfl := Except.ok.inj h
    exact hr
  | cons d ds ih =>
    rw [Running.applyBatch] at h
    cases hd : r.dispatch cfg d with
    | error e => rw [hd] at h; exact absurd h (by simp)
    | ok r₁ =>
      rw [hd] at h
      refine ih h ?_
      unfold Running.dispatch at hd
      dsimp only at hd
      cases he : d.event with
      | message src payload => rw [he] at hd; exact absorb_src hd hr
      | timer id => rw [he] at hd; exact absorb_src hd hr
      | clientSubmit command => rw [he] at hd; exact absorb_src hd hr

theorem LetsGo.signed {p' : Process} {r : Running} (h : Signed cfg.id p) (hgo : LetsGo p.released p' r)
    (hr : ∀ e ∈ r.pendingOutbound, e.src = cfg.id) : Signed cfg.id p' where
  released := fun e he => by
    obtain ⟨more, hrel, hmore⟩ := hgo.released
    rw [hrel] at he
    exact (List.mem_append.1 he).elim (h.released e) fun hin => hr e (hmore e hin)
  running := fun r' hr' => by
    rw [(hgo.running r' hr').2.2]
    exact fun e he => absurd he List.not_mem_nil

theorem signed_step (cfg : Config) (h : Signed cfg.id p) (op : ProcOp) : Signed cfg.id (p.step b cfg op) := by
  cases step_stepped b cfg p op with
  | quiet hreleased hrun =>
    exact ⟨fun e he => h.released e (hreleased ▸ he), fun r hr => h.running r (hrun r hr)⟩
  | cold hop hdown hload hreleased hrun =>
    refine ⟨fun e he => h.released e (hreleased ▸ he), fun r hr => ?_⟩
    obtain rfl := Option.some.inj (hrun.symm.trans hr)
    exact fun e he => absurd he List.not_mem_nil
  | rejoins hload hboot hcall hgo =>
    subst hboot
    exact hgo.signed h (absorb_src hcall fun e he => absurd he List.not_mem_nil)
  | batch hop hup hbatch hsaves hgo => exact hgo.signed h (applyBatch_src hbatch (h.running _ hup))

theorem released_grows (b : Bincode) (cfg : Config) (p : Process) (op : ProcOp) : ∃ more, (p.step b cfg op).released = p.released ++ more := by
  cases step_stepped b cfg p op with
  | quiet hreleased hrun => exact ⟨[], by rw [hreleased, List.append_nil]⟩
  | cold hop hdown hload hreleased hrun => exact ⟨[], by rw [hreleased, List.append_nil]⟩
  | rejoins hload hboot hcall hgo => exact hgo.released.imp fun _ h => h.1
  | batch hop hup hbatch hsaves hgo => exact hgo.released.imp fun _ h => h.1

end Signed

/-! ## The run -/

/-- what was released so far, replica by replica -/
def Deployed.released (s : Deployed) (i : NodeId) : List Release := (s.cluster i).released

structure Linked (w : Wire) (b : Bincode) (d : Deployment) (s : Deployed) : Prop where
  wired : Wired w s.released s
  signed : ∀ i, Signed i (s.cluster i)
  cluster : s.cluster = Cluster.run b d s.history
  delivers : Runs.Along (Cluster.step b d) Cluster.Delivers .blank s.history

theorem stamped_event (events : List Event) (clock : ℕ → ℕ) (rng : ℕ → NodeId → Draw) :
    (Deployed.stamped events clock rng).map Dispatch.event = events := by
  refine List.ext_getElem? fun n => ?_
  rw [Deployed.stamped, List.getElem?_map, List.getElem?_mapIdx]
  cases events[n]? <;> rfl

/-- handing out touches neither the processes nor the record of their steps -/
theorem handAll_frame (i : NodeId) (rs : List Release) (s : Deployed) :
    (rs.foldl (Deployed.hand i) s).cluster = s.cluster ∧ (rs.foldl (Deployed.hand i) s).history = s.history := by
  induction rs generalizing s with
  | nil => exact ⟨rfl, rfl⟩
  | cons r rs ih =>
    have hone : (s.hand i r).cluster = s.cluster ∧ (s.hand i r).history = s.history := by
      cases r with
      | outcome id record => exact ⟨rfl, rfl⟩
      | sent e =>
        unfold Deployed.hand
        dsimp only
        split_ifs <;> exact ⟨rfl, rfl⟩
    obtain ⟨hcluster, hhistory⟩ := ih (s.hand i r)
    exact ⟨hcluster.trans hone.1, hhistory.trans hone.2⟩

section Run

variable {w : Wire} {b : Bincode} {d : Deployment} {s : Deployed}

/-- **A process steps**, told only what was released to it, and what it lets go of is on its way. -/
theorem Linked.act (h : Linked w b d s) {o : ClusterOp} {s' : Deployed} (hcluster : s'.cluster = s.cluster)
    (hhistory : s'.history = s.history) (hwired : Wired w s.released { s' with history := s.history ++ [o] })
    (htold : Cluster.Delivers s.cluster o) : Linked w b d (s'.act b d o) := by
  obtain ⟨c, listening, inbox, dialers, looped, history⟩ := s'
  obtain rfl : c = s.cluster := hcluster
  obtain rfl : history = s.history := hhistory
  obtain ⟨more, hmore⟩ := released_grows b (d.config o.id) (s.cluster o.id) o.op
  -- the process steps, and what it lets go of is handed out
  let s₁ : Deployed := ⟨s.cluster.step b d o, listening, inbox, dialers, looped, s.history ++ [o]⟩
  let s₂ := more.foldl (Deployed.hand o.id) s₁
  have hact : Deployed.act b d ⟨s.cluster, listening, inbox, dialers, looped, s.history⟩ o =
      if ((s.cluster o.id).step b (d.config o.id) o.op).running.isNone then s₂.down o.id else s₂ := by
    unfold Deployed.act
    dsimp only
    rw [hmore, List.drop_left]
  obtain ⟨hcluster, hhistory⟩ : s₂.cluster = s.cluster.step b d o ∧ s₂.history = s.history ++ [o] := handAll_frame ..
  have hreleased : s₂.released = Function.update s.released o.id (s.released o.id ++ more) := by
    funext i
    show (s₂.cluster i).released = _
    rw [hcluster]
    by_cases hi : i = o.id
    · subst hi
      rw [Function.update_self, Cluster.step, Function.update_self, hmore]
      rfl
    · rw [Function.update_of_ne hi, Cluster.step, Function.update_of_ne hi]
      rfl
  have hwired₂ : Wired w s₂.released s₂ := by
    rw [hreleased]
    exact Wired.handAll (s := s₁) ⟨hwired.tracks, hwired.alone, hwired.looped, hwired.once⟩ o.id more
  have hlinked : Linked w b d s₂ := by
    refine ⟨hwired₂, fun i => ?_, ?_, ?_⟩
    · rw [hcluster]
      by_cases hi : i = o.id
      · subst hi
        rw [Cluster.step, Function.update_self]
        exact signed_step (d.config o.id) (h.signed o.id) o.op
      · rw [Cluster.step, Function.update_of_ne hi]
        exact h.signed i
    · rw [hcluster, hhistory, Cluster.run, Runs.run_snoc, ← Cluster.run, ← h.cluster]
    · rw [hhistory, Runs.along_append]
      refine ⟨h.delivers, ?_, trivial⟩
      rw [← Cluster.run, ← h.cluster]
      exact htold
  rw [hact]
  split_ifs
  · exact ⟨hwired₂.down o.id, hlinked.signed, hlinked.cluster, hlinked.delivers⟩
  · exact hlinked

/-- a step of the transport alone -/
theorem Linked.moves (h : Linked w b d s) {s' : Deployed} (hcluster : s'.cluster = s.cluster)
    (hhistory : s'.history = s.history) (hwired : Wired w s.released s') : Linked w b d s' where
  wired := by
    have hsame : s'.released = s.released := by unfold Deployed.released; rw [hcluster]
    rwa [hsame]
  signed := hcluster ▸ h.signed
  cluster := by rw [hcluster, hhistory]; exact h.cluster
  delivers := by rw [hhistory]; exact h.delivers

/-- what a replica is about to be told was released to it -/
theorem Linked.pending (h : Linked w b d s) {i j : NodeId} {m : SmrMsg} (hm : .message j m ∈ s.inbox i) :
    .sent ⟨j, i, m⟩ ∈ (s.cluster j).released := by
  have hcount := h.wired.count_le (fun i e he => (h.signed i).released e he) i j m
  refine List.count_pos_iff.1 (lt_of_lt_of_le ?_ hcount)
  exact List.count_pos_iff.2 (List.mem_append_right _ hm)

/-- dialers and acceptors start without a step of a process -/
theorem listen_frame (s : Deployed) (i : NodeId) :
    (s.listen i).cluster = s.cluster ∧ (s.listen i).history = s.history ∧ (s.listen i).inbox = s.inbox := by
  unfold Deployed.listen
  split_ifs <;> exact ⟨rfl, rfl, rfl⟩

/-- a batch is told what it takes off the inbox -/
theorem batch_told {i : NodeId} {taken : ℕ} (htaken : taken ≤ GROUP_COMMIT_BATCH_LIMIT) {first : Dispatch}
    {ready : List Dispatch} {clock : ℕ → ℕ} {rng : ℕ → NodeId → Draw} (kill : Option Kill)
    (hevents : Deployed.stamped ((s.inbox i).take taken) clock rng = first :: ready) :
    (ProcOp.batch first ready kill).events.map Dispatch.event = (s.inbox i).take taken ∧
      ∀ k, told (s.history ++ [⟨i, .batch first ready kill⟩]) k ++
        Function.update s.inbox i ((s.inbox i).drop taken) k = told s.history k ++ s.inbox k := by
  have hbatch : Process.batchOf first ready = first :: ready := by
    refine List.take_of_length_le ?_
    rw [← hevents, Deployed.stamped, List.length_mapIdx, List.length_take]
    omega
  have htold : (ProcOp.batch first ready kill).events.map Dispatch.event = (s.inbox i).take taken := by
    show (Process.batchOf first ready).map Dispatch.event = _
    rw [hbatch, ← hevents, stamped_event]
  refine ⟨htold, fun k => ?_⟩
  rw [told_snoc]
  by_cases hk : i = k
  · subst hk
    rw [if_pos rfl, htold, Function.update_self, List.append_assoc, List.take_append_drop]
  · rw [if_neg hk, Function.update_of_ne (Ne.symm hk), List.append_nil]

theorem Linked.batch (h : Linked w b d s) {i : NodeId} {taken : ℕ} (htaken : taken ≤ GROUP_COMMIT_BATCH_LIMIT)
    {first : Dispatch} {ready : List Dispatch} {clock : ℕ → ℕ} {rng : ℕ → NodeId → Draw} (kill : Option Kill)
    (hevents : Deployed.stamped ((s.inbox i).take taken) clock rng = first :: ready) :
    Linked w b d (Deployed.act b d { s with inbox := Function.update s.inbox i ((s.inbox i).drop taken) }
      ⟨i, .batch first ready kill⟩) := by
  obtain ⟨htold, hsame⟩ := batch_told htaken kill hevents
  refine h.act rfl rfl ⟨h.wired.tracks, h.wired.alone, h.wired.looped, fun k j m => ?_⟩ fun disp hdisp src m he => ?_
  · dsimp only
    rw [hsame]
    exact h.wired.once k j m
  · have hmem : disp.event ∈ (s.inbox i).take taken := htold ▸ List.mem_map_of_mem hdisp
    exact h.pending (he ▸ List.mem_of_mem_take hmem)

theorem linked_step (hw : w.RoundTrips) (h : Linked w b d s) (o : NetOp) : Linked w b d (s.step w b d o) := by
  have hquiet : ∀ {c : Cluster} {o : ClusterOp}, o.op.events = [] → Cluster.Delivers c o := by
    intro c o ho disp hdisp
    rw [ho] at hdisp
    exact absurd hdisp List.not_mem_nil
  cases o with
  | listen i =>
    obtain ⟨hcluster, hhistory, -⟩ := listen_frame s i
    exact h.moves hcluster hhistory (h.wired.listen i)
  | boot i fault elapsed rng kill =>
    unfold Deployed.step
    dsimp only
    split_ifs
    · exact h
    · obtain ⟨hcluster, hhistory, -⟩ := listen_frame s i
      have hwired := (h.wired.listen i).records (o := ⟨i, .boot fault elapsed rng kill⟩) rfl
      rw [hhistory] at hwired
      exact h.act hcluster hhistory hwired (hquiet rfl)
  | batch i taken clock rng kill =>
    unfold Deployed.step
    dsimp only
    split_ifs
    · exact h
    split
    · exact h
    · rename_i first ready hevents
      exact h.batch (Nat.min_le_right ..) kill hevents
  | kill i => exact h.act (o := ⟨i, .kill⟩) rfl rfl (h.wired.records rfl) (hquiet rfl)
  | fire i id =>
    unfold Deployed.step
    dsimp only
    split_ifs
    · exact h.moves rfl rfl (h.wired.post (by simp))
    · exact h
  | submit i command =>
    unfold Deployed.step
    dsimp only
    split_ifs
    · exact h.moves rfl rfl (h.wired.post (by simp))
    · exact h
  | dial i j sent =>
    unfold Deployed.step
    dsimp only
    split_ifs with hpeer
    · refine h.moves rfl rfl (h.wired.setDialer ((h.wired.tracks i j).dial sent) ?_ fun x => ?_)
      · exact fun hself => absurd hself.symm hpeer.1.2
      · rw [Dialer.accepted_dial]
    · exact h
  | forward i j action sent =>
    refine h.moves rfl rfl (h.wired.setDialer ((h.wired.tracks i j).forward action sent) ?_ fun x => ?_)
    · rintro rfl
      simp [Dialer.forward, h.wired.alone]
    · rw [Dialer.accepted_forward]
  | receive i j k =>
    refine h.moves ?_ ?_ (h.wired.receive hw b d i j k)
    · unfold Deployed.step
      dsimp only
      split <;> rfl
    · unfold Deployed.step
      dsimp only
      split <;> rfl
  | cut i j k =>
    refine h.moves rfl rfl (h.wired.setDialer ((h.wired.tracks i j).reread (fun _ _ hc => hc.close) k) ?_ fun x => ?_)
    · rintro rfl
      show (s.dialers i i).conns.modify k Conn.close = []
      rw [h.wired.alone]
      exact List.modify_nil ..
    · exact (congrArg (List.count x) (Dialer.accepted_cut (s.dialers i j) k)).ge

theorem linked_blank (w : Wire) (b : Bincode) (d : Deployment) : Linked w b d .blank where
  wired :=
    { tracks := fun i _ => Dialer.tracks_blank w i
      alone := fun _ => rfl
      looped := fun _ => List.nil_sublist _
      once := fun _ _ _ => Nat.zero_le _ }
  signed := fun _ => ⟨fun _ he => absurd he List.not_mem_nil, fun _ hr => absurd hr (by simp [Deployed.blank, Cluster.blank, Process.blank])⟩
  cluster := rfl
  delivers := trivial

/-- every run keeps the links -/
theorem linked_run (hw : w.RoundTrips) (b : Bincode) (d : Deployment) (ops : List NetOp) :
    Linked w b d (Deployed.run w b d ops) :=
  Runs.run_invariant (I := Linked w b d) (fun _ o h _ => linked_step hw h o) (linked_blank w b d) (Runs.along_true _ _ ops)

/-- **The transport refines the cluster.** Whatever is queued, dropped, written, cut or read in any order, the processes
run as a cluster that is told only what was released to it: each message at most as often as it was released, those of
one connection after another in the order in which they were released. No queue outgrows its bound. -/
theorem transport_faithful (hw : w.RoundTrips) (b : Bincode) (d : Deployment) (ops : List NetOp) :
    let s := Deployed.run w b d ops
    s.cluster = Cluster.run b d s.history ∧
      Runs.Along (Cluster.step b d) Cluster.Delivers .blank s.history ∧
      (∀ i j m, (told s.history i).count (.message j m) ≤ (s.cluster j).released.count (.sent ⟨j, i, m⟩)) ∧
      ∀ i j, (∀ x ∈ (s.dialers i j).accepted, x.1 = i) ∧
        ((s.dialers i j).accepted.map Prod.snd).Sublist (stream (s.cluster i).released j) ∧
        (s.dialers i j).queue.length ≤ OUTBOUND_QUEUE_CAPACITY := by
  have h := linked_run hw b d ops
  refine ⟨h.cluster, h.delivers, fun i j m => ?_, fun i j => ?_⟩
  · have hcount := h.wired.count_le (fun i e he => (h.signed i).released e he) i j m
    rw [List.count_append] at hcount
    exact (Nat.le_add_right _ _).trans hcount
  · obtain ⟨hname, horder⟩ := (h.wired.tracks i j).accepted
    exact ⟨hname, horder, (h.wired.tracks i j).bounded⟩

end Run

/-- replica 0 takes a command in, dials replica 1, and its first request gets there -/
def oneRequest (command : Command) : List NetOp :=
  [.boot 0 none 0 (drawing 1) none, .boot 1 none 0 (drawing 1) none, .submit 0 command, .fire 0 .kickoff,
    .batch 0 2 (fun _ => 0) (fun _ => drawing 1) none, .dial 0 1 true, .forward 0 1 .send true, .receive 0 1 0,
    .receive 0 1 0, .batch 1 1 (fun _ => 0) (fun _ => drawing 1) none]

theorem transport_faithful_oneRequest :
    let s := Deployed.run .fields (.table []) Cluster.ledByFirst (oneRequest (.put 2 1 7 9))
    told s.history 1 = [.message 0 (.request (firstRequest (.put 2 1 7 9)))] ∧
      Runs.Along (Cluster.step (.table []) Cluster.ledByFirst) Cluster.Delivers .blank s.history ∧
      .sent ⟨0, 1, .request (firstRequest (.put 2 1 7 9))⟩ ∈ (s.cluster 0).released := by
  dsimp only
  have htold : told (Deployed.run .fields (.table []) Cluster.ledByFirst (oneRequest (.put 2 1 7 9))).history 1 =
      [.message 0 (.request (firstRequest (.put 2 1 7 9)))] := by decide +kernel
  obtain ⟨-, hdelivers, honce, -⟩ :=
    transport_faithful Wire.fields_roundTrips (.table []) Cluster.ledByFirst (oneRequest (.put 2 1 7 9))
  have hcount := honce 1 0 (.request (firstRequest (.put 2 1 7 9)))
  rw [htold] at hcount
  exact ⟨htold, hdelivers, List.count_pos_iff.1 (lt_of_lt_of_le (by decide) hcount)⟩

end Queso.Net
