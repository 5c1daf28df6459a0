/-
The post-mortem of a preserved failure: the replicas' durable applied logs, compared with each other and with what the
observer claimed about them.

Two logs are compared slot by slot over what both hold. A claim is a hash at a height, one more than the last slot under
it, and is checked against the chain recomputed from that replica's log.

- `verdicts_consistent`: a pair's verdict names the earliest slot where the two logs part; two confirmed claims at one
  height with different hashes need a slot below that height where they do; and the slot in dispute is the earliest one
  where any two logs part, or comes from the claims where none do.
- `divergence_adjudicated`: so where the logs agree below the height of a reported divergence, one of its two sides did
  not come from an applied log.
-/
import Mathlib.Data.PNat.Defs
import Mathlib.Order.Bounds.Basic
import Queso.Conformance.Observer

namespace Queso.Soak

open Chain

/-- the commands that a replica applied, in slot order -/
structure AppliedLog where
  replica : NodeId
  commands : List Command

namespace AppliedLog

/-- the chain at height `n`, if the log is that long -/
def chainAt (log : AppliedLog) (n : ℕ) : Option ChainState :=
  if n ≤ log.commands.length then some (ChainState.fromLog (log.commands.take n)) else none

end AppliedLog

inductive PairVerdict where
  | noOverlap
  | agree (compared : ℕ+)
  | differ (slot : ℕ) (left right : Command)
deriving DecidableEq

/-- what the observability path reported: replica `replica` showed `h` at height `n` -/
structure Claim where
  replica : NodeId
  n : ℕ
  h : BlockHash
deriving DecidableEq

inductive ClaimVerdict where
  | confirmed
  | contradicted (recomputed : BlockHash)
  | shortLog (logLen : ℕ)
  | noLog
deriving DecidableEq

inductive SlotChoice where
  | earliestDivergence
  | observerClaim
deriving DecidableEq

/-- both sides of every reported divergence, each claim once -/
def claimsFrom (divergences : List Divergence) : List Claim :=
  let sides := divergences.flatMap fun d => [⟨d.first.1, d.n, d.first.2⟩, ⟨d.other.1, d.n, d.other.2⟩]
  sides.foldl (fun claims claim => if claim ∈ claims then claims else claims ++ [claim]) []

/-- the verdict on one slot, if the logs part there -/
def differAt (left right : AppliedLog) (slot : ℕ) : Option PairVerdict :=
  match left.commands[slot]?, right.commands[slot]? with
  | some l, some r => if l ≠ r then some (.differ slot l r) else none
  | _, _ => none

def compare (left right : AppliedLog) : PairVerdict :=
  let overlap := min left.commands.length right.commands.length
  if h : 0 < overlap then
    ((List.range overlap).findSome? (differAt left right)).getD (.agree ⟨overlap, h⟩)
  else .noOverlap

/-- logs in the order of their replicas, with at most one for each -/
structure Postmortem where
  logs : List AppliedLog
  keyed : logs.Pairwise fun a b => a.replica < b.replica

namespace Postmortem

/-- the log of a replica already seen replaces the earlier one -/
def insertLog (log : AppliedLog) : List AppliedLog → List AppliedLog
  | [] => [log]
  | l :: logs =>
    if log.replica < l.replica then log :: l :: logs
    else if log.replica = l.replica then log :: logs
    else l :: insertLog log logs

theorem mem_insertLog {log x : AppliedLog} {logs : List AppliedLog} (h : x ∈ insertLog log logs) :
    x = log ∨ x ∈ logs := by
  induction logs with
  | nil => exact .inl (List.mem_singleton.1 h)
  | cons l logs ih =>
    unfold insertLog at h
    split_ifs at h
    · exact List.mem_cons.1 h
    · rcases List.mem_cons.1 h with rfl | h
      · exact .inl rfl
      · exact .inr (List.mem_cons_of_mem _ h)
    · rcases List.mem_cons.1 h with rfl | h
      · exact .inr List.mem_cons_self
      · exact (ih h).imp id (List.mem_cons_of_mem _)

theorem insertLog_keyed {log : AppliedLog} {logs : List AppliedLog}
    (h : logs.Pairwise fun a b => a.replica < b.replica) :
    (insertLog log logs).Pairwise fun a b => a.replica < b.replica := by
  induction logs with
  | nil => exact List.pairwise_singleton _ _
  | cons l logs ih =>
    obtain ⟨hl, hrest⟩ := List.pairwise_cons.1 h
    unfold insertLog
    split_ifs with hlt heq
    · refine List.pairwise_cons.2 ⟨fun x hx => ?_, h⟩
      rcases List.mem_cons.1 hx with rfl | hx
      · exact hlt
      · exact hlt.trans (hl x hx)
    · exact List.pairwise_cons.2 ⟨fun x hx => by rw [heq]; exact hl x hx, hrest⟩
    · refine List.pairwise_cons.2 ⟨fun x hx => ?_, ih hrest⟩
      rcases mem_insertLog hx with rfl | hx
      · exact lt_of_le_of_ne (not_lt.1 hlt) (Ne.symm heq)
      · exact hl x hx

def fromLogs (logs : List AppliedLog) : Postmortem where
  logs := logs.foldl (fun kept log => insertLog log kept) []
  keyed := List.foldlRecOn logs _ List.Pairwise.nil fun _ hkept _ _ => insertLog_keyed hkept

/-- the log of a replica, if one was preserved -/
def log (pm : Postmortem) (replica : NodeId) : Option AppliedLog := pm.logs.find? fun l => l.replica = replica

def pairsOf : List AppliedLog → List (NodeId × NodeId × PairVerdict)
  | [] => []
  | left :: logs => (logs.map fun right => (left.replica, right.replica, compare left right)) ++ pairsOf logs

/-- every pair of replicas and what comparing their logs found -/
def pairs (pm : Postmortem) : List (NodeId × NodeId × PairVerdict) := pairsOf pm.logs

def differSlot : PairVerdict → Option ℕ
  | .differ slot _ _ => some slot
  | _ => none

def disputedSlot (pm : Postmortem) (claims : List Claim) : Option (ℕ × SlotChoice) :=
  match (pm.pairs.filterMap fun p => differSlot p.2.2).min? with
  | some slot => some (slot, .earliestDivergence)
  | none => (claims.map fun claim => claim.n - 1).min?.map fun slot => (slot, .observerClaim)

def check (pm : Postmortem) (claim : Claim) : ClaimVerdict :=
  match pm.log claim.replica with
  | none => .noLog
  | some log =>
    match log.chainAt claim.n with
    | none => .shortLog log.commands.length
    | some state => if state.h = claim.h then .confirmed else .contradicted state.h

end Postmortem

/-! ## Comparing two logs -/

/-- both logs hold the slot, with different commands -/
def PartAt (left right : AppliedLog) (slot : ℕ) : Prop :=
  ∃ l r, left.commands[slot]? = some l ∧ right.commands[slot]? = some r ∧ l ≠ r

variable {left right : AppliedLog} {slot : ℕ} {v : PairVerdict}

theorem PartAt.symm (h : PartAt left right slot) : PartAt right left slot := by
  obtain ⟨l, r, hl, hr, hne⟩ := h
  exact ⟨r, l, hr, hl, hne.symm⟩

theorem not_partAt_self : ¬ PartAt left left slot := by
  rintro ⟨l, r, hl, hr, hne⟩
  rw [hl] at hr
  exact hne (Option.some.inj hr)

theorem PartAt.lt_overlap (h : PartAt left right slot) : slot < min left.commands.length right.commands.length := by
  obtain ⟨l, r, hl, hr, -⟩ := h
  have hleft := (List.getElem?_eq_some_iff.1 hl).1
  have hright := (List.getElem?_eq_some_iff.1 hr).1
  omega

theorem differAt_eq_some : differAt left right slot = some v ↔
    ∃ l r, left.commands[slot]? = some l ∧ right.commands[slot]? = some r ∧ l ≠ r ∧ v = .differ slot l r := by
  unfold differAt
  cases hl : left.commands[slot]? with
  | none => simp
  | some l =>
    cases hr : right.commands[slot]? with
    | none => simp
    | some r =>
      by_cases hne : l = r
      · simp [hne]
      · simp [hne, eq_comm]

theorem differAt_eq_none : differAt left right slot = none ↔ ¬ PartAt left right slot := by
  rw [Option.eq_none_iff_forall_not_mem]
  constructor
  · rintro h ⟨l, r, hl, hr, hne⟩
    exact h _ (differAt_eq_some.2 ⟨l, r, hl, hr, hne, rfl⟩)
  · intro h v hv
    obtain ⟨l, r, hl, hr, hne, -⟩ := differAt_eq_some.1 hv
    exact h ⟨l, r, hl, hr, hne⟩

theorem findSome?_range_eq_some {β : Type} {f : ℕ → Option β} {k : ℕ} {b : β} :
    (List.range k).findSome? f = some b ↔ ∃ i < k, f i = some b ∧ ∀ j < i, f j = none := by
  induction k with
  | zero => simp
  | succ k ih =>
    rw [List.range_succ, List.findSome?_append, Option.or_eq_some_iff, ih, List.findSome?_eq_none_iff]
    constructor
    · rintro (⟨i, hi, h⟩ | ⟨hnone, hlast⟩)
      · exact ⟨i, by omega, h⟩
      · exact ⟨k, by omega, by simpa using hlast, fun j hj => hnone j (List.mem_range.2 hj)⟩
    · rintro ⟨i, hi, hb, hbefore⟩
      rcases Nat.lt_succ_iff_lt_or_eq.1 hi with hi | rfl
      · exact .inl ⟨i, hi, hb, hbefore⟩
      · exact .inr ⟨fun j hj => hbefore j (List.mem_range.1 hj), by simp [hb]⟩

/-- the verdict names the earliest slot where the logs part, and what each holds there -/
theorem compare_eq_differ {l r : Command} : compare left right = .differ slot l r ↔
    IsLeast {s | PartAt left right s} slot ∧ left.commands[slot]? = some l ∧ right.commands[slot]? = some r := by
  unfold compare
  dsimp only
  constructor
  · intro h
    split_ifs at h with hov
    cases hfind : (List.range _).findSome? (differAt left right) with
    | none => rw [hfind] at h; cases h
    | some v =>
      rw [hfind, Option.getD_some] at h
      subst h
      obtain ⟨i, -, hi, hbefore⟩ := findSome?_range_eq_some.1 hfind
      obtain ⟨l', r', hl, hr, hne, hv⟩ := differAt_eq_some.1 hi
      cases hv
      refine ⟨⟨⟨l, r, hl, hr, hne⟩, fun s hs => ?_⟩, hl, hr⟩
      by_contra hlt
      exact differAt_eq_none.1 (hbefore s (not_le.1 hlt)) hs
  · rintro ⟨⟨hpart, hleast⟩, hl, hr⟩
    have hlt := hpart.lt_overlap
    rw [dif_pos (by omega)]
    have hne : l ≠ r := by
      obtain ⟨l', r', hl', hr', hne⟩ := hpart
      rw [hl] at hl'
      rw [hr] at hr'
      cases hl'
      cases hr'
      exact hne
    have hfind : (List.range _).findSome? (differAt left right) = some (.differ slot l r) :=
      findSome?_range_eq_some.2 ⟨slot, hlt, differAt_eq_some.2 ⟨l, r, hl, hr, hne, rfl⟩, fun j hj =>
        differAt_eq_none.2 fun hj' => absurd (hleast hj') (by omega)⟩
    rw [hfind, Option.getD_some]

theorem compare_eq_differ_iff_isLeast :
    (∃ l r, compare left right = .differ slot l r) ↔ IsLeast {s | PartAt left right s} slot := by
  constructor
  · rintro ⟨l, r, h⟩
    exact (compare_eq_differ.1 h).1
  · intro h
    obtain ⟨l, r, hl, hr, -⟩ := h.1
    exact ⟨l, r, compare_eq_differ.2 ⟨h, hl, hr⟩⟩

theorem compare_eq_noOverlap : compare left right = .noOverlap ↔
    ¬ ∃ s, s < left.commands.length ∧ s < right.commands.length := by
  unfold compare
  dsimp only
  constructor
  · rintro h ⟨s, hl, hr⟩
    rw [dif_pos (by omega)] at h
    cases hfind : (List.range _).findSome? (differAt left right) with
    | none => rw [hfind] at h; cases h
    | some v =>
      rw [hfind, Option.getD_some] at h
      subst h
      obtain ⟨i, -, hi, -⟩ := findSome?_range_eq_some.1 hfind
      obtain ⟨l, r, -, -, -, hv⟩ := differAt_eq_some.1 hi
      cases hv
  · intro h
    rw [dif_neg]
    intro hpos
    exact h ⟨0, by omega, by omega⟩

/-! ## The pairs -/

namespace Postmortem

variable {pm : Postmortem} {i j : NodeId} {claim claim' : Claim}

theorem log_eq_some {l : AppliedLog} : pm.log i = some l ↔ l ∈ pm.logs ∧ l.replica = i := by
  constructor
  · intro h
    exact ⟨List.mem_of_find?_eq_some h, by simpa using List.find?_some h⟩
  · rintro ⟨hmem, rfl⟩
    cases hf : pm.log l.replica with
    | none =>
      have hnone := List.find?_eq_none.1 hf l hmem
      simp at hnone
    | some l' =>
      -- no two logs are of one replica
      have hnodup : (pm.logs.map AppliedLog.replica).Nodup :=
        List.pairwise_map.2 (pm.keyed.imp fun hlt => hlt.ne)
      have heq : l'.replica = l.replica := by simpa using List.find?_some hf
      rw [List.inj_on_of_nodup_map hnodup (List.mem_of_find?_eq_some hf) hmem heq]

theorem mem_pairsOf {logs : List AppliedLog} (hk : logs.Pairwise fun a b => a.replica < b.replica) :
    (i, j, v) ∈ pairsOf logs ↔
      ∃ l ∈ logs, ∃ r ∈ logs, l.replica < r.replica ∧ i = l.replica ∧ j = r.replica ∧ v = compare l r := by
  induction logs with
  | nil => simp [pairsOf]
  | cons a logs ih =>
    obtain ⟨ha, hk⟩ := List.pairwise_cons.1 hk
    rw [pairsOf, List.mem_append, List.mem_map, ih hk]
    constructor
    · rintro (⟨r, hr, h⟩ | ⟨l, hl, r, hr, h⟩)
      · cases h
        exact ⟨a, List.mem_cons_self, r, List.mem_cons_of_mem _ hr, ha r hr, rfl, rfl, rfl⟩
      · exact ⟨l, List.mem_cons_of_mem _ hl, r, List.mem_cons_of_mem _ hr, h⟩
    · rintro ⟨l, hl, r, hr, hlt, rfl, rfl, rfl⟩
      rcases List.mem_cons.1 hl with rfl | hl'
      · rcases List.mem_cons.1 hr with rfl | hr'
        · exact absurd hlt (lt_irrefl _)
        · exact .inl ⟨r, hr', rfl⟩
      · rcases List.mem_cons.1 hr with rfl | hr'
        · exact absurd (hlt.trans (ha l hl')) (lt_irrefl _)
        · exact .inr ⟨l, hl', r, hr', hlt, rfl, rfl, rfl⟩

/-- the pairs are those of two preserved logs, each once, the lower replica first -/
theorem mem_pairs : (i, j, v) ∈ pm.pairs ↔
    ∃ l r, pm.log i = some l ∧ pm.log j = some r ∧ i < j ∧ v = compare l r := by
  rw [pairs, mem_pairsOf pm.keyed]
  constructor
  · rintro ⟨l, hl, r, hr, hlt, rfl, rfl, rfl⟩
    exact ⟨l, r, log_eq_some.2 ⟨hl, rfl⟩, log_eq_some.2 ⟨hr, rfl⟩, hlt, rfl⟩
  · rintro ⟨l, r, hl, hr, hlt, rfl⟩
    obtain ⟨hl', rfl⟩ := log_eq_some.1 hl
    obtain ⟨hr', rfl⟩ := log_eq_some.1 hr
    exact ⟨l, hl', r, hr', hlt, rfl, rfl, rfl⟩

/-! ## Claims -/

theorem check_eq_confirmed : pm.check claim = .confirmed ↔
    ∃ l, pm.log claim.replica = some l ∧ claim.n ≤ l.commands.length ∧
      (ChainState.fromLog (l.commands.take claim.n)).h = claim.h := by
  unfold check
  cases hlog : pm.log claim.replica with
  | none => simp
  | some l =>
    unfold AppliedLog.chainAt
    by_cases hn : claim.n ≤ l.commands.length
    · by_cases hh : (ChainState.fromLog (l.commands.take claim.n)).h = claim.h
      · simp [hn, hh]
      · simp [hn, hh]
    · simp [hn]

/-- logs of at least `n` slots that do not part below `n` have the same first `n` commands -/
theorem take_eq_of_agree {n : ℕ} (hl : n ≤ left.commands.length) (hr : n ≤ right.commands.length)
    (h : ∀ s < n, ¬ PartAt left right s) : left.commands.take n = right.commands.take n := by
  apply List.ext_getElem?
  intro s
  by_cases hs : s < n
  · have hleft : left.commands[s]? = some left.commands[s] := List.getElem?_eq_getElem (by omega)
    have hright : right.commands[s]? = some right.commands[s] := List.getElem?_eq_getElem (by omega)
    rw [List.getElem?_take_of_lt hs, List.getElem?_take_of_lt hs, hleft, hright]
    by_contra hne
    exact h s hs ⟨_, _, hleft, hright, fun heq => hne (by rw [heq])⟩
  · rw [List.getElem?_eq_none (by rw [List.length_take]; omega),
      List.getElem?_eq_none (by rw [List.length_take]; omega)]

/-- two confirmed hashes at one height come from logs that part below it -/
theorem partAt_of_confirmed (hc : pm.check claim = .confirmed) (hc' : pm.check claim' = .confirmed)
    (hn : claim.n = claim'.n) (hh : claim.h ≠ claim'.h) :
    ∃ l r, pm.log claim.replica = some l ∧ pm.log claim'.replica = some r ∧ ∃ s < claim.n, PartAt l r s := by
  obtain ⟨l, hl, hlen, hhash⟩ := check_eq_confirmed.1 hc
  obtain ⟨r, hr, hlen', hhash'⟩ := check_eq_confirmed.1 hc'
  refine ⟨l, r, hl, hr, ?_⟩
  by_contra hagree
  have htake : l.commands.take claim.n = r.commands.take claim.n :=
    take_eq_of_agree hlen (by omega) fun s hs hpart => hagree ⟨s, hs, hpart⟩
  rw [htake] at hhash
  rw [← hn] at hhash'
  exact hh (hhash.symm.trans hhash')

/-- logs that part below a height have a verdict that says so -/
theorem pair_of_partAt {l r : AppliedLog} {n s : ℕ} (hl : pm.log i = some l) (hr : pm.log j = some r) (hs : s < n)
    (hpart : PartAt l r s) :
    ∃ slot < n, ∃ a b, (i, j, .differ slot a b) ∈ pm.pairs ∨ (j, i, .differ slot a b) ∈ pm.pairs := by
  have hverdict {a b : AppliedLog} (hex : PartAt a b s) : ∃ slot < n, ∃ x y, compare a b = .differ slot x y := by
    classical
    have hsome : ∃ k, PartAt a b k := ⟨s, hex⟩
    obtain ⟨x, y, hxy⟩ := compare_eq_differ_iff_isLeast.2
      ⟨Nat.find_spec hsome, fun k hk => Nat.find_min' hsome hk⟩
    exact ⟨_, (Nat.find_min' hsome hex).trans_lt hs, x, y, hxy⟩
  rcases lt_trichotomy i j with hij | rfl | hji
  · obtain ⟨slot, hlt, x, y, hxy⟩ := hverdict hpart
    exact ⟨slot, hlt, x, y, .inl (mem_pairs.2 ⟨l, r, hl, hr, hij, hxy.symm⟩)⟩
  · rw [hl] at hr
    cases hr
    exact absurd hpart not_partAt_self
  · obtain ⟨slot, hlt, x, y, hxy⟩ := hverdict hpart.symm
    exact ⟨slot, hlt, x, y, .inr (mem_pairs.2 ⟨r, l, hr, hl, hji, hxy.symm⟩)⟩

/-! ## The slot in dispute -/

/-- the slots where two of the logs part -/
def Parted (pm : Postmortem) : Set ℕ := {s | ∃ l ∈ pm.logs, ∃ r ∈ pm.logs, PartAt l r s}

/-- the slots that the verdicts name -/
def slotsNamed (pm : Postmortem) : List ℕ := pm.pairs.filterMap fun p => differSlot p.2.2

theorem mem_slotsNamed {s : ℕ} : s ∈ pm.slotsNamed ↔ ∃ i j a b, (i, j, .differ s a b) ∈ pm.pairs := by
  unfold slotsNamed
  rw [List.mem_filterMap]
  constructor
  · rintro ⟨⟨i, j, v⟩, hmem, hv⟩
    cases v with
    | noOverlap => cases hv
    | agree n => cases hv
    | differ slot a b =>
      cases hv
      exact ⟨i, j, a, b, hmem⟩
  · rintro ⟨i, j, a, b, hmem⟩
    exact ⟨_, hmem, rfl⟩

/-- every slot named is one where two logs part -/
theorem parted_of_named {s : ℕ} (h : s ∈ pm.slotsNamed) : s ∈ pm.Parted := by
  obtain ⟨i, j, a, b, hmem⟩ := mem_slotsNamed.1 h
  obtain ⟨l, r, hl, hr, -, hv⟩ := mem_pairs.1 hmem
  exact ⟨l, (log_eq_some.1 hl).1, r, (log_eq_some.1 hr).1, (compare_eq_differ.1 hv.symm).1.1⟩

/-- and where two logs part, a slot no later is named -/
theorem named_of_parted {s : ℕ} (h : s ∈ pm.Parted) : ∃ s' ≤ s, s' ∈ pm.slotsNamed := by
  obtain ⟨l, hl, r, hr, hpart⟩ := h
  obtain ⟨slot, hlt, a, b, hmem⟩ := pair_of_partAt (log_eq_some.2 ⟨hl, rfl⟩) (log_eq_some.2 ⟨hr, rfl⟩)
    (Nat.lt_succ_self s) hpart
  refine ⟨slot, Nat.le_of_lt_succ hlt, mem_slotsNamed.2 ?_⟩
  rcases hmem with hmem | hmem
  · exact ⟨_, _, _, _, hmem⟩
  · exact ⟨_, _, _, _, hmem⟩

theorem min?_eq_some_isLeast {l : List ℕ} {m : ℕ} : l.min? = some m ↔ IsLeast {x | x ∈ l} m := by
  rw [List.min?_eq_some_iff]
  exact Iff.rfl

theorem slotsNamed_min?_eq_some : pm.slotsNamed.min? = some slot ↔ IsLeast pm.Parted slot := by
  rw [min?_eq_some_isLeast]
  constructor
  · rintro ⟨hmem, hleast⟩
    refine ⟨parted_of_named hmem, fun s hs => ?_⟩
    obtain ⟨s', hle, hs'⟩ := named_of_parted hs
    exact (hleast hs').trans hle
  · rintro ⟨hmem, hleast⟩
    obtain ⟨s', hle, hs'⟩ := named_of_parted hmem
    obtain rfl : s' = slot := le_antisymm hle (hleast (parted_of_named hs'))
    exact ⟨hs', fun s hs => hleast (parted_of_named hs)⟩

theorem slotsNamed_min?_eq_none : pm.slotsNamed.min? = none ↔ pm.Parted = ∅ := by
  rw [List.min?_eq_none_iff]
  constructor
  · intro hnil
    rw [Set.eq_empty_iff_forall_notMem]
    intro s hs
    obtain ⟨s', -, hs'⟩ := named_of_parted hs
    rw [hnil] at hs'
    cases hs'
  · intro hempty
    rw [List.eq_nil_iff_forall_not_mem]
    intro s hs
    have hpart := parted_of_named hs
    rw [hempty] at hpart
    exact hpart

/-- the slot in dispute, by where the logs part and else by the claims -/
theorem disputedSlot_spec (pm : Postmortem) (claims : List Claim) :
    (∀ slot, pm.disputedSlot claims = some (slot, .earliestDivergence) ↔ IsLeast pm.Parted slot) ∧
    (∀ slot, pm.disputedSlot claims = some (slot, .observerClaim) ↔
      pm.Parted = ∅ ∧ IsLeast {s | ∃ claim ∈ claims, s = claim.n - 1} slot) ∧
    (pm.disputedSlot claims = none ↔ pm.Parted = ∅ ∧ claims = []) := by
  have hclaims (slot : ℕ) : (claims.map fun claim => claim.n - 1).min? = some slot ↔
      IsLeast {s | ∃ claim ∈ claims, s = claim.n - 1} slot := by
    rw [min?_eq_some_isLeast]
    simp only [List.mem_map, eq_comm]
  unfold disputedSlot
  rw [show (pm.pairs.filterMap fun p => differSlot p.2.2) = pm.slotsNamed from rfl]
  cases hmin : pm.slotsNamed.min? with
  | some s =>
    have hleast := slotsNamed_min?_eq_some.1 hmin
    have hne : pm.Parted ≠ ∅ := Set.nonempty_iff_ne_empty.1 ⟨s, hleast.1⟩
    refine ⟨fun slot => ?_, fun slot => ?_, ?_⟩
    · constructor
      · intro h
        cases h
        exact hleast
      · intro h
        rw [h.unique hleast]
    · simp [hne]
    · simp [hne]
  | none =>
    have hempty := slotsNamed_min?_eq_none.1 hmin
    refine ⟨fun slot => ?_, fun slot => ?_, ?_⟩
    · rw [hempty]
      constructor
      · intro h
        cases hc : (claims.map fun claim => claim.n - 1).min? with
        | none => rw [hc] at h; cases h
        | some s => rw [hc] at h; cases h
      · intro h
        exact absurd h.1 (Set.notMem_empty _)
    · rw [← hclaims]
      simp [hempty]
    · simp [hempty, List.min?_eq_none_iff]

/-- **The verdicts of a post-mortem are mutually consistent**, whatever the logs and the claims: a pair differs at the
earliest slot that both logs hold with different commands and does not overlap when they hold no slot in common; two
confirmed claims at one height with different hashes come with a verdict that their replicas differ below it, so that
logs which agree through the height leave one of the two unconfirmed; and the slot in dispute is the earliest where any
two logs part, else the lowest that the claims name, else there is neither. -/
theorem verdicts_consistent (pm : Postmortem) :
    (∀ i j v, (i, j, v) ∈ pm.pairs ↔ ∃ l r, pm.log i = some l ∧ pm.log j = some r ∧ i < j ∧ v = compare l r) ∧
    (∀ l r : AppliedLog,
      (∀ slot, (∃ a b, compare l r = .differ slot a b) ↔ IsLeast {s | PartAt l r s} slot) ∧
      (compare l r = .noOverlap ↔ ¬ ∃ s, s < l.commands.length ∧ s < r.commands.length)) ∧
    (∀ claim claim' : Claim, claim.n = claim'.n → claim.h ≠ claim'.h →
      (pm.check claim = .confirmed → pm.check claim' = .confirmed →
        ∃ slot < claim.n, ∃ a b, (claim.replica, claim'.replica, .differ slot a b) ∈ pm.pairs ∨
          (claim'.replica, claim.replica, .differ slot a b) ∈ pm.pairs) ∧
      ((∀ l r, pm.log claim.replica = some l → pm.log claim'.replica = some r → ∀ s < claim.n, ¬ PartAt l r s) →
        pm.check claim ≠ .confirmed ∨ pm.check claim' ≠ .confirmed)) ∧
    ∀ claims : List Claim,
      (∀ slot, pm.disputedSlot claims = some (slot, .earliestDivergence) ↔ IsLeast pm.Parted slot) ∧
      (∀ slot, pm.disputedSlot claims = some (slot, .observerClaim) ↔
        pm.Parted = ∅ ∧ IsLeast {s | ∃ claim ∈ claims, s = claim.n - 1} slot) ∧
      (pm.disputedSlot claims = none ↔ pm.Parted = ∅ ∧ claims = []) := by
  refine ⟨fun i j v => mem_pairs, fun l r => ⟨fun slot => compare_eq_differ_iff_isLeast, compare_eq_noOverlap⟩,
    fun claim claim' hn hh => ⟨fun hc hc' => ?_, fun hagree => ?_⟩, disputedSlot_spec pm⟩
  · obtain ⟨l, r, hl, hr, s, hs, hpart⟩ := partAt_of_confirmed hc hc' hn hh
    exact pair_of_partAt hl hr hs hpart
  · by_contra hboth
    rw [not_or, not_not, not_not] at hboth
    obtain ⟨l, r, hl, hr, s, hs, hpart⟩ := partAt_of_confirmed hboth.1 hboth.2 hn hh
    exact hagree l r hl hr s hs hpart

/-- replicas 0 and 1 hold different commands at slot 1 -/
def partedLogs : Postmortem := fromLogs [⟨1, [.get 7 1 0, .get 7 2 1]⟩, ⟨0, [.get 7 1 0, .get 7 2 0]⟩]

/-- their frontiers are confirmed, so the pair differs below height 2 -/
theorem verdicts_consistent_parted : ∃ slot < 2, ∃ a b,
    (0, 1, .differ slot a b) ∈ partedLogs.pairs ∨ (1, 0, .differ slot a b) ∈ partedLogs.pairs :=
  ((verdicts_consistent partedLogs).2.2.1 ⟨0, 2, (ChainState.fromLog [.get 7 1 0, .get 7 2 0]).h⟩
    ⟨1, 2, (ChainState.fromLog [.get 7 1 0, .get 7 2 1]).h⟩ rfl (by decide +kernel)).1
    (by decide +kernel) (by decide +kernel)

end Postmortem

/-! ## Adjudicating what the observer reported -/

variable {divergences : List Divergence} {claim : Claim}

theorem mem_claimsFrom : claim ∈ claimsFrom divergences ↔
    ∃ d ∈ divergences, claim = ⟨d.first.1, d.n, d.first.2⟩ ∨ claim = ⟨d.other.1, d.n, d.other.2⟩ := by
  have hfold (sides kept : List Claim) :
      claim ∈ sides.foldl (fun claims c => if c ∈ claims then claims else claims ++ [c]) kept ↔
        claim ∈ kept ∨ claim ∈ sides := by
    induction sides generalizing kept with
    | nil => simp
    | cons c sides ih =>
      rw [List.foldl_cons, ih, List.mem_cons]
      by_cases hc : c ∈ kept
      · rw [if_pos hc]
        constructor
        · rintro (h | h)
          · exact .inl h
          · exact .inr (.inr h)
        · rintro (h | rfl | h)
          · exact .inl h
          · exact .inl hc
          · exact .inr h
      · rw [if_neg hc, List.mem_append, List.mem_singleton, or_assoc]
  unfold claimsFrom
  rw [hfold]
  simp

/-- both sides of a reported divergence are checked, and where the logs agree below its height one of the two fails -/
theorem divergence_adjudicated (pm : Postmortem) {samples : List Sample} {d : Divergence}
    (hd : d ∈ (Observer.observeAll samples).divergences)
    (hagree : ∀ l r, pm.log d.first.1 = some l → pm.log d.other.1 = some r → ∀ s < d.n, ¬ PartAt l r s) :
    ∃ claim ∈ claimsFrom (Observer.observeAll samples).divergences, claim.n = d.n ∧ pm.check claim ≠ .confirmed := by
  obtain ⟨s, -, w, -, -, hh, hdef⟩ := Observer.divergence_source hd
  have hne : d.first.2 ≠ d.other.2 := by rw [hdef]; exact hh
  have hfirst := mem_claimsFrom.2 ⟨d, hd, .inl rfl⟩
  have hother := mem_claimsFrom.2 ⟨d, hd, .inr rfl⟩
  by_cases hc : pm.check ⟨d.first.1, d.n, d.first.2⟩ = .confirmed
  · refine ⟨_, hother, rfl, fun hc' => ?_⟩
    obtain ⟨l, r, hl, hr, s, hs, hpart⟩ := Postmortem.partAt_of_confirmed hc hc' rfl hne
    exact hagree l r hl hr s hs hpart
  · exact ⟨_, hfirst, rfl, hc⟩

end Queso.Soak
